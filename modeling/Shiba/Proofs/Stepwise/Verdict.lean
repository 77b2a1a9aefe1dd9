import Shiba.Proofs.Stepwise.Faults

/-!
# What a reading leaves behind

A statement that can be over is over in front of a token that it does not go on with
(`Reading.offer_of_not_goesOn`), and the end of input is such a token (`Reading.offer_eof`).  Wherever a
reading ends, the statements that were complete stay (`Reading.done_prefix_of_advance`), and a reading that
has not ended goes on with the tokens behind (`Reading.run_append`).
-/

namespace Shiba.Stepwise

open Shiba.Expr (binaryOp?)
open Shiba.Stmt (assignOp? endsAt)

variable {pending : List Pending} {look : Look} {mode : Mode} {e : Expr} {t : Token} {r r' : Reading}
  {program : Program}

/-! ## Statements that can be over -/

/-- The statement that a list of expressions makes. -/
def Side.stmt? (e : Expr) : Side → Option Stmt
  | .left [] => some (.expr e)
  | .left (_ :: _) => none
  | .right p op targets before => some (.assign p op targets (before ++ [e]))

/-- The statement that has been read, when it can be over. -/
def Now.stmt? : Now → Option Stmt
  | .expr (.list side) pending look => (look.ended? pending).bind side.stmt?
  | .expr (.result p) pending look => (look.ended? pending).map fun e => .returnValue p (some e)
  | .more side e => side.stmt? e
  | .importPart p parts => some (.importModule p ("/".intercalate parts))
  | .returning p => some (.returnValue p none)
  | .branches p before => some (.conditional p before none)
  | _ => none

theorem endsAt_iff {l : Lexeme} :
    endsAt l = true ↔ Inert l ∨ l = .punct .rightBrace := by
  unfold endsAt Inert
  split <;> simp_all

/-- A token that an expression goes on with although it can be over in front of it.  A brace goes on with a
name, except in a header. -/
def Look.GoesOn (l : Lexeme) : Look → Prop
  | .name mode _ _ => Extending l ∨ l = .punct .leftBrace ∧ mode.header = false
  | _ => Extending l

/-- A token that a statement goes on with behind an expression. -/
def Head.GoesOn (l : Lexeme) : Head → Prop
  | .list (.left _) => l = .punct .comma ∨ (assignOp? l).isSome
  | .list (.right ..) => l = .punct .comma
  | _ => False

/-- A token that a statement goes on with although it can be over in front of it. -/
def Now.GoesOn (l : Lexeme) : Now → Prop
  | .expr head _ look => look.GoesOn l ∨ head.GoesOn l
  | .more .. | .returning _ => endsAt l = false
  | .importPart .. => l = .punct .slash
  | .branches .. => l = .keyword .elifWord ∨ l = .keyword .elseWord
  | _ => False

instance (l : Lexeme) : (look : Look) → Decidable (look.GoesOn l)
  | .name .. => inferInstanceAs (Decidable (_ ∨ _))
  | .operand _ | .item .. | .suffix .. | .value .. | .member .. | .field .. | .colon .. =>
    inferInstanceAs (Decidable (Extending l))

instance (l : Lexeme) : (head : Head) → Decidable (head.GoesOn l)
  | .list (.left _) => inferInstanceAs (Decidable (_ ∨ _))
  | .list (.right ..) => inferInstanceAs (Decidable (_ = _))
  | .result _ | .condition .. | .loop _ | .target .. => inferInstanceAs (Decidable False)

instance (l : Lexeme) : (now : Now) → Decidable (now.GoesOn l)
  | .expr .. | .branches .. => inferInstanceAs (Decidable (_ ∨ _))
  | .more .. | .returning _ | .importPart .. => inferInstanceAs (Decidable (_ = _))
  | .start | .assigning .. | .importing _ | .importSlash .. | .functionName .. | .functionParen ..
  | .param .. | .paramEnd .. | .functionBrace .. | .structName _ | .structBrace .. | .members _
  | .looping _ | .counter .. | .counterComma .. | .element .. | .otherwise .. =>
    inferInstanceAs (Decidable False)

theorem Look.GoesOn.of_extending {l : Lexeme} (more : Extending l) : look.GoesOn l := by
  cases look with
  | name => exact .inl more
  | _ => exact more

/-- A token that an expression does not go on with ends it, where it can be over. -/
theorem Look.move_of_ended (finished : look.ended? pending = some e) (other : ¬look.GoesOn t.lexeme) :
    look.move pending t = .finished e := by
  have plain : ¬Extending t.lexeme := fun more => other (.of_extending more)
  have no := binaryOp?_of_not_extending plain
  have suffix : ∀ mode e, suffixMove mode e pending t = valueMove mode e pending t :=
    fun _ _ => suffixMove_of_not_extending plain
  cases look with
  | name mode p n =>
    have header : ¬(t.lexeme = .punct .leftBrace ∧ mode.header = false) := fun opens => other (.inr opens)
    simp only [Look.move, if_neg header, suffix]
    exact valueMove_of_closed no finished
  | suffix mode e =>
    simp only [Look.move, suffix]
    exact valueMove_of_closed no finished
  | value mode e => exact valueMove_of_closed no finished
  | _ => cases finished

theorem not_extending_of_endsAt {l : Lexeme} (ends : endsAt l = true) :
    ¬Extending l ∧ l ≠ .punct .leftBrace ∧ l ≠ .punct .comma ∧ assignOp? l = none := by
  rcases endsAt_iff.1 ends with inert | rfl
  · cases l <;> simp_all [Inert, Extending, binaryOp?, assignOp?]
  · refine ⟨?_, by simp, by simp, rfl⟩
    rintro (found | same | same | same)
    · cases found
    all_goals cases same

theorem Head.not_goesOn_of_endsAt {l : Lexeme} {head : Head} (ends : endsAt l = true) : ¬head.GoesOn l := by
  obtain ⟨-, -, comma, no⟩ := not_extending_of_endsAt ends
  rcases head with (_ | _) | _ | _ | _ | _
  case list.left => simp [Head.GoesOn, comma, no]
  case list.right => exact comma
  all_goals exact id

/-- No statement goes on with a token that ends statements. -/
theorem Now.not_goesOn_of_endsAt {l : Lexeme} {now : Now} (ends : endsAt l = true) : ¬now.GoesOn l := by
  obtain ⟨other, brace, -, -⟩ := not_extending_of_endsAt ends
  cases now with
  | expr head pending look =>
    refine not_or.2 ⟨?_, Head.not_goesOn_of_endsAt ends⟩
    cases look with
    | name => exact not_or.2 ⟨other, fun opens => brace opens.1⟩
    | _ => exact other
  | more | returning =>
    intro more
    cases ends.symm.trans more
  | importPart =>
    rintro rfl
    cases ends
  | branches =>
    rintro (rfl | rfl) <;> cases ends
  | _ => exact id

namespace Reading

theorem endList_of_stmt {side : Side} {s : Stmt} (no : ¬(Head.list side).GoesOn t.lexeme)
    (finished : side.stmt? e = some s) : r.endList e t side = r.finish s t := by
  cases side with
  | left before =>
    have none : assignOp? t.lexeme = none := Option.not_isSome_iff_eq_none.1 fun some => no (.inr some)
    cases before with
    | nil =>
      cases finished
      simp only [endList, none]
      rfl
    | cons => cases finished
  | right p op targets before =>
    cases finished
    rfl

/-- A token that a statement does not go on with ends it, where it can be over. -/
theorem offer_of_not_goesOn {s : Stmt} (finished : r.now.stmt? = some s) (ends : ¬r.now.GoesOn t.lexeme) :
    r.offer t = r.finish s t := by
  rcases r with ⟨outer, before, now⟩
  cases now with
  | expr head pending look =>
    obtain ⟨here, behind⟩ := not_or.1 ends
    simp only [offer, inExpr]
    cases ended : look.ended? pending with
    | none => cases head <;> simp [Now.stmt?, ended] at finished
    | some e =>
      rw [Look.move_of_ended ended here]
      cases head with
      | list side =>
        simp only [Now.stmt?, ended, Option.bind_some] at finished
        have comma : t.lexeme ≠ .punct .comma := by
          cases side with
          | left => exact fun comma => behind (.inl comma)
          | right => exact behind
        simp only [behindExpr, if_neg comma]
        exact endList_of_stmt behind finished
      | result p =>
        simp only [Now.stmt?, ended, Option.map_some, Option.some.injEq] at finished
        simp only [behindExpr, finished]
      | condition | loop | target => cases finished
  | more side e =>
    have ends : endsAt t.lexeme = true := eq_true_of_ne_false ends
    simp only [offer, ends, Bool.or_true, if_true]
    exact endList_of_stmt (Head.not_goesOn_of_endsAt ends) finished
  | importPart p parts =>
    cases finished
    exact if_neg ends
  | returning p =>
    cases finished
    exact if_pos (eq_true_of_ne_false ends)
  | branches p branches =>
    cases finished
    simp only [offer]
    split
    · exact absurd (.inl ‹_›) ends
    · exact absurd (.inr ‹_›) ends
    · rfl
  | _ => cases finished

/-- Behind a statement that can be over, a token that ends statements is none of it. -/
theorem offer_of_endsAt {s : Stmt} (finished : r.now.stmt? = some s) (ends : endsAt t.lexeme = true) :
    r.offer t = r.finish s t :=
  offer_of_not_goesOn finished (Now.not_goesOn_of_endsAt ends)

/-- Several targets without an operator are blamed on the second. -/
theorem endList_of_several {first : Expr} {before : List Expr} (no : assignOp? t.lexeme = none) :
    ∃ failure, r.endList e t (.left (first :: before)) = .error ⟨r.done, .failed failure⟩ ∧
      failure.fault.incomplete = false := by
  simp only [endList, no]
  cases before with
  | nil => exact ⟨_, rfl, rfl⟩
  | cons second before => exact ⟨_, rfl, rfl⟩

/-- What is cut short is blamed, even at the end of input. -/
theorem offer_of_cutShort (cut : r.now.cutShort = true) (inert : Inert t.lexeme) :
    ∃ failure, r.offer t = .error ⟨r.done, .failed failure⟩ ∧ failure.fault.incomplete = false := by
  obtain ⟨-, -, no, ends, mark⟩ := inert.no_operator
  rcases r with ⟨outer, before, now⟩
  cases now with
  | expr head pending look =>
    rcases head with ⟨⟨- | ⟨first, others⟩⟩⟩ | _ | _ | _ | _
    · cases cut
    · obtain ⟨e, ended⟩ := Option.isSome_iff_exists.1 cut
      rcases look.move_of_inert pending inert with ⟨e', same, move⟩ | ⟨none, -⟩
      · simp only [offer, inExpr, move, behindExpr, if_neg (mark _)]
        exact endList_of_several no
      · cases ended.symm.trans none
    all_goals cases cut
  | more side e =>
    rcases side with ⟨- | ⟨first, others⟩⟩ | _
    · cases cut
    · simp only [offer, ends, Bool.or_true, if_true]
      exact endList_of_several no
    · cases cut
  | counterComma p counter comma =>
    have offers : (⟨outer, before, .counterComma p counter comma⟩ : Reading).offer t =
        fail ⟨outer, before, .counterComma p counter comma⟩
          (.expected Punctuator.leftBrace.text (.punct .comma)) comma := by
      cases same : t.lexeme <;> simp_all [offer, Inert]
    exact ⟨_, offers, rfl⟩
  | element p counter comma element =>
    simp only [offer, if_neg (inert.no_word.1 _)]
    exact ⟨_, rfl, rfl⟩
  | _ => cases cut

section

variable (inert : Inert t.lexeme)
include inert

theorem expectName_of_inert (next : String → Now) :
    ∃ failure, r.expectName next t = .error ⟨r.done, .failed failure⟩ := by
  unfold expectName
  split
  · exact absurd ‹_› (inert.no_word.2.1 _)
  · exact ⟨_, rfl⟩

theorem expectMark_of_inert (mark : Punctuator) (now : Now) :
    ∃ failure, r.expectMark mark now t = .error ⟨r.done, .failed failure⟩ := by
  obtain ⟨-, -, -, -, noMark⟩ := inert.no_operator
  exact ⟨_, if_neg (noMark mark)⟩

theorem expectBlock_of_inert (owner : Owner) :
    ∃ failure, r.expectBlock owner t = .error ⟨r.done, .failed failure⟩ := by
  obtain ⟨-, -, -, -, noMark⟩ := inert.no_operator
  exact ⟨_, if_neg (noMark _)⟩

theorem startExpr_of_inert (head : Head) (mode : Mode) :
    ∃ failure, r.startExpr head mode t = .error ⟨r.done, .failed failure⟩ := by
  obtain ⟨failure, move, -⟩ := operandMove_of_inert mode [] inert
  simp only [startExpr, move]
  exact ⟨_, rfl⟩

theorem endList_of_inert {side : Side} (unfinished : side.stmt? e = none) :
    ∃ failure, r.endList e t side = .error ⟨r.done, .failed failure⟩ := by
  obtain ⟨-, -, no, -, -⟩ := inert.no_operator
  rcases side with ⟨- | ⟨first, others⟩⟩ | _
  · cases unfinished
  · obtain ⟨failure, error, -⟩ := endList_of_several (r := r) (e := e) no
    exact ⟨failure, error⟩
  · cases unfinished

theorem inExpr_of_inert {head : Head} (unfinished : (Now.expr head pending look).stmt? = none) :
    ∃ failure, r.inExpr head pending look t = .error ⟨r.done, .failed failure⟩ := by
  obtain ⟨-, -, -, -, noMark⟩ := inert.no_operator
  unfold inExpr
  rcases look.move_of_inert pending inert with ⟨e, ended, move⟩ | ⟨-, failure, move, -⟩
  · rw [move]
    cases head with
    | list side =>
      simp only [Now.stmt?, ended, Option.bind_some] at unfinished
      simp only [behindExpr, if_neg (noMark _)]
      exact endList_of_inert inert unfinished
    | result p => simp [Now.stmt?, ended] at unfinished
    | condition | loop | target => exact expectBlock_of_inert inert _
  · rw [move]
    exact ⟨_, rfl⟩

/-- What is neither over nor between statements has no room for a token that ends statements, but for
the comments among the members of a struct. -/
theorem offer_of_stmt_none (unfinished : r.now.stmt? = none) (start : r.now ≠ .start)
    (members : ∀ m, r.now ≠ .members m) :
    ∃ failure, r.offer t = .error ⟨r.done, .failed failure⟩ := by
  obtain ⟨-, -, -, ends, mark⟩ := inert.no_operator
  -- no name and no text: so the steps that look for one do what they do with any other token
  obtain ⟨word, name, string⟩ := inert.no_word
  rcases r with ⟨outer, before, now⟩
  cases now with
  | start => exact absurd rfl start
  | members m => exact absurd rfl (members m)
  | returning | importPart | branches => cases unfinished
  | expr head pending look => exact inExpr_of_inert inert unfinished
  | more side e =>
    simp only [offer, ends, Bool.or_true, if_true]
    exact endList_of_inert inert unfinished
  | assigning p op left => exact ⟨_, if_pos ends⟩
  | importing p =>
    simp only [offer]
    exact ⟨_, rfl⟩
  | importSlash | functionName | structName => exact expectName_of_inert inert _
  | functionParen | structBrace => exact expectMark_of_inert inert _ _
  | functionBrace | otherwise => exact expectBlock_of_inert inert _
  | param host p f params =>
    simp only [offer, if_neg (mark _)]
    exact expectName_of_inert inert _
  | paramEnd host p f params =>
    simp only [offer, if_neg (mark _)]
    exact expectMark_of_inert inert _ _
  | looping p =>
    simp only [offer]
    exact startExpr_of_inert inert _ _
  | counter p counter =>
    simp only [offer, if_neg (mark _)]
    exact inExpr_of_inert inert rfl
  | counterComma p counter comma =>
    simp only [offer]
    exact ⟨_, rfl⟩
  | element p counter comma element =>
    simp only [offer, if_neg (word _)]
    exact ⟨_, rfl⟩

end

/-! ## The end of input, and comments -/

theorem done_add (r : Reading) (s : Stmt) :
    (r.add s).done = if r.outer = [] then r.before ++ [s] else r.done := by
  rcases r with ⟨- | ⟨level, outer⟩, before, now⟩ <;> rfl

/-- At the end of input a block that is open is missed, and nothing else is. -/
theorem begin_eof (eof : t.lexeme = .eof) : r.begin t = .error (if r.outer = [] then
    ⟨r.before, .complete t.position⟩ else
    ⟨r.done, .failed ⟨.grammatical .unterminatedBlock, t.position⟩⟩) := by
  simp only [begin, eof]
  cases r.outer <;> rfl

/-- At the end of input a reading is over: nothing is open, or the statements that were complete stay. -/
theorem offer_eof (r : Reading) (eof : t.lexeme = .eof) :
    (∃ block, r.offer t = .error ⟨block, .complete t.position⟩) ∨
      ∃ failure, r.offer t = .error ⟨r.done, .failed failure⟩ := by
  have inert : Inert t.lexeme := by rw [eof]; trivial
  cases finished : r.now.stmt? with
  | some s =>
    have outer : (r.add s).outer = r.outer := rfl
    rw [offer_of_endsAt finished (endsAt_iff.2 (.inl inert)), finish, begin_eof eof, done_add, outer]
    by_cases top : r.outer = []
    · exact .inl ⟨_, by rw [if_pos top]⟩
    · exact .inr ⟨_, by rw [if_neg top, if_neg top]⟩
  | none =>
    by_cases start : r.now = .start
    · simp only [offer, start]
      rw [begin_eof eof]
      split
      · exact .inl ⟨_, rfl⟩
      · exact .inr ⟨_, rfl⟩
    by_cases members : ∃ m, r.now = .members m
    · obtain ⟨m, same⟩ := members
      simp only [offer, same, eof]
      exact .inr ⟨_, rfl⟩
    · exact .inr (offer_of_stmt_none inert finished start fun m same => members ⟨m, same⟩)

/-- At the end of input a reading is over.  Unless it was cut short, the fault says where it was found. -/
theorem advance_eof (r : Reading) (place : Position) :
    ∃ program, r.advance ⟨.eof, place⟩ = .error program ∧
      (∀ failure, program.ending = .failed failure → program.statements = r.done) ∧
      (if r.now.cutShort = true then Blamed program else Ended ⟨.eof, place⟩ program) := by
  have advances : r.advance ⟨.eof, place⟩ = r.offer ⟨.eof, place⟩ := by simp [advance]
  rw [advances]
  have verdict : ∀ program, r.offer ⟨.eof, place⟩ = .error program →
      if r.now.cutShort = true then Blamed program else Ended ⟨.eof, place⟩ program := by
    intro program error
    split
    · rename_i cut
      obtain ⟨failure, error', unflagged⟩ := offer_of_cutShort (t := ⟨.eof, place⟩) cut trivial
      cases error.symm.trans error'
      exact ⟨failure, rfl, unflagged⟩
    · rename_i whole
      exact (offer_ended error).resolve_right fun cut => whole cut.1
  rcases r.offer_eof (t := ⟨.eof, place⟩) rfl with ⟨block, error⟩ | ⟨failure, error⟩
  · exact ⟨_, error, nofun, verdict _ error⟩
  · exact ⟨_, error, fun _ _ => rfl, verdict _ error⟩

/-- Whether a comment can stand somewhere does not depend on its text, and behind it newlines are
skipped. -/
theorem advance_comment (r : Reading) (p : Position) :
    (∀ text, ∃ program, r.advance ⟨.comment text, p⟩ = .error program) ∨
      ∃ next : String → Reading, ∀ text,
        r.advance ⟨.comment text, p⟩ = .ok (next text) ∧ (next text).now.skips = true := by
  have advances : ∀ text, r.advance ⟨.comment text, p⟩ = r.offer ⟨.comment text, p⟩ := by simp [advance]
  simp only [advances]
  cases finished : r.now.stmt? with
  | some s =>
    refine .inr ⟨fun text => (r.add s).add (.comment p text), fun text => ⟨?_, rfl⟩⟩
    exact offer_of_endsAt finished rfl
  | none =>
    by_cases start : r.now = .start
    · refine .inr ⟨fun text => r.add (.comment p text), fun text => ⟨?_, rfl⟩⟩
      simp only [offer, start, begin]
    by_cases members : ∃ m, r.now = .members m
    · obtain ⟨m, same⟩ := members
      refine .inr ⟨fun _ => { r with now := .members m }, fun text => ⟨?_, rfl⟩⟩
      simp only [offer, same]
      rfl
    · refine .inl fun text => ?_
      obtain ⟨failure, error⟩ := offer_of_stmt_none (t := ⟨.comment text, p⟩) trivial finished start
        fun m same => members ⟨m, same⟩
      exact ⟨_, error⟩

/-! ## Complete statements stay -/

theorem done_prefix_add (r : Reading) (s : Stmt) : r.done <+: (r.add s).done := by
  rcases r with ⟨- | ⟨level, outer⟩, before, now⟩
  · exact ⟨[s], rfl⟩
  · exact List.prefix_rfl

theorem done_prefix_closeBlock (r : Reading) (body : Block) (owner : Owner) :
    r.done <+: (closeBlock r body owner).done := by
  cases owner with
  | function host p name params =>
    cases host with
    | none => exact done_prefix_add _ _
    | some m => exact List.prefix_rfl
  | branch => exact List.prefix_rfl
  | _ => exact done_prefix_add _ _

theorem done_prefix_startExpr {head : Head} (step : r.startExpr head mode t = .ok r') :
    r.done <+: r'.done := by
  unfold startExpr at step
  split at step <;> cases step
  exact List.prefix_rfl

theorem done_prefix_begin (step : r.begin t = .ok r') : r.done <+: r'.done := by
  unfold begin at step
  split at step
  case h_2 => split at step <;> cases step
  case h_3 =>
    split at step
    · exact done_prefix_startExpr step
    · rename_i owner before outer same
      cases step
      have done : r.done = (⟨outer, before, .start⟩ : Reading).done := by simp [Reading.done, same]
      rw [done]
      exact done_prefix_closeBlock _ _ _
  case h_13 => exact done_prefix_startExpr step
  all_goals
    cases step
    first | exact List.prefix_rfl | exact done_prefix_add _ _

theorem done_prefix_finish {s : Stmt} (step : r.finish s t = .ok r') : r.done <+: r'.done :=
  (done_prefix_add r s).trans (done_prefix_begin step)

theorem done_prefix_expectBlock {owner : Owner} (step : r.expectBlock owner t = .ok r') :
    r.done <+: r'.done := by
  unfold expectBlock at step
  split at step <;> cases step
  exact List.prefix_rfl

theorem done_prefix_expectName {next : String → Now} (step : r.expectName next t = .ok r') :
    r.done <+: r'.done := by
  unfold expectName at step
  split at step <;> cases step
  exact List.prefix_rfl

theorem done_prefix_expectMark {mark : Punctuator} {now : Now} (step : r.expectMark mark now t = .ok r') :
    r.done <+: r'.done := by
  unfold expectMark at step
  split at step <;> cases step
  exact List.prefix_rfl

theorem done_prefix_endList {side : Side} (step : r.endList e t side = .ok r') : r.done <+: r'.done := by
  unfold endList at step
  split at step
  · split at step
    · cases step
      exact List.prefix_rfl
    · split at step
      · cases step
      · exact done_prefix_finish step
  · exact done_prefix_finish step

theorem done_prefix_inExpr {head : Head} (step : r.inExpr head pending look t = .ok r') :
    r.done <+: r'.done := by
  unfold inExpr at step
  split at step
  · cases step
    exact List.prefix_rfl
  · cases step
  · cases head with
    | list side =>
      simp only [behindExpr] at step
      split at step
      · cases step
        exact List.prefix_rfl
      · exact done_prefix_endList step
    | result p => exact done_prefix_finish step
    | condition | loop | target => exact done_prefix_expectBlock step

theorem done_prefix_offer (step : r.offer t = .ok r') : r.done <+: r'.done := by
  rcases r with ⟨outer, before, now⟩
  cases now with
  | start => exact done_prefix_begin step
  | expr head pending look => exact done_prefix_inExpr step
  | more side e =>
    simp only [offer] at step
    split at step
    · exact done_prefix_endList step
    · exact done_prefix_startExpr step
  | assigning p op left =>
    simp only [offer] at step
    split at step
    · cases step
    · exact done_prefix_startExpr step
  | importing p =>
    simp only [offer] at step
    split at step
    · cases step
      exact done_prefix_add _ _
    · cases step
      exact List.prefix_rfl
    · cases step
  | importPart p parts =>
    simp only [offer] at step
    split at step
    · cases step
      exact List.prefix_rfl
    · exact done_prefix_finish step
  | importSlash | functionName | structName => exact done_prefix_expectName step
  | functionParen | structBrace => exact done_prefix_expectMark step
  | functionBrace | otherwise => exact done_prefix_expectBlock step
  | param host p name params =>
    simp only [offer] at step
    split at step
    · cases step
      exact List.prefix_rfl
    · exact done_prefix_expectName step
  | paramEnd host p name params =>
    simp only [offer] at step
    split at step
    · cases step
      exact List.prefix_rfl
    · exact done_prefix_expectMark step
  | members m =>
    simp only [offer] at step
    split at step
    case h_1 =>
      cases step
      exact done_prefix_add _ _
    case h_6 => cases step
    all_goals
      cases step
      exact List.prefix_rfl
  | returning p =>
    simp only [offer] at step
    split at step
    · exact done_prefix_finish step
    · exact done_prefix_startExpr step
  | looping p =>
    simp only [offer] at step
    split at step
    · cases step
      exact List.prefix_rfl
    · exact done_prefix_startExpr step
  | counter p counter =>
    simp only [offer] at step
    split at step
    · cases step
      exact List.prefix_rfl
    · exact done_prefix_inExpr step
  | counterComma | element =>
    simp only [offer] at step
    split at step
    · cases step
      exact List.prefix_rfl
    · cases step
  | branches p branches =>
    simp only [offer] at step
    split at step
    · cases step
      exact List.prefix_rfl
    · cases step
      exact List.prefix_rfl
    · exact done_prefix_finish step

/-- A statement that is complete stays so, whatever token follows. -/
theorem done_prefix_of_advance (step : r.advance t = .ok r') : r.done <+: r'.done := by
  unfold advance at step
  split at step
  · cases step
    exact List.prefix_rfl
  · exact done_prefix_offer step

/-! ## Runs -/

/-- Takes tokens one after another: the reading that goes on, or the program when the text is over. -/
def reads (r : Reading) : List Token → Except Program Reading
  | [] => .ok r
  | t :: list =>
    match r.advance t with
    | .error program => .error program
    | .ok r => r.reads list

variable {list list' : List Token} {ending : Ending}

theorem reads_append_ok (first : r.reads list = .ok r') : r.reads (list ++ list') = r'.reads list' := by
  induction list generalizing r with
  | nil =>
    cases first
    rfl
  | cons t list ih =>
    simp only [reads, List.cons_append] at first ⊢
    cases step : r.advance t with
    | error program => rw [step] at first; cases first
    | ok next =>
      rw [step] at first
      exact ih first

theorem reads_append_error (first : r.reads list = .error program) :
    r.reads (list ++ list') = .error program := by
  induction list generalizing r with
  | nil => cases first
  | cons t list ih =>
    simp only [reads, List.cons_append] at first ⊢
    cases step : r.advance t with
    | error program' =>
      rw [step] at first
      exact first
    | ok next =>
      rw [step] at first
      exact ih first

/-- Tokens that have been read can be left out of a run. -/
theorem run_append (first : r.reads list = .ok r') :
    r.run ⟨list ++ list', ending⟩ = r'.run ⟨list', ending⟩ := by
  induction list generalizing r with
  | nil =>
    cases first
    rfl
  | cons t list ih =>
    simp only [Reading.reads] at first
    simp only [List.cons_append, run, run.runFrom]
    cases step : r.advance t with
    | error program => rw [step] at first; cases first
    | ok next =>
      rw [step] at first
      exact ih first

theorem run_of_reads_ok {ts : Tokens} (reads : r.reads ts.list = .ok r') :
    r.run ts = r'.run ⟨[], ts.ending⟩ := by
  rw [← run_append reads, List.append_nil]

theorem run_of_reads_error {ts : Tokens} (reads : r.reads ts.list = .error program) :
    r.run ts = program := by
  rcases ts with ⟨list, ending⟩
  induction list generalizing r with
  | nil => cases reads
  | cons t list ih =>
    simp only [Reading.reads] at reads
    simp only [run, run.runFrom]
    cases step : r.advance t with
    | error program' =>
      rw [step] at reads
      exact Except.error.inj reads
    | ok next =>
      rw [step] at reads
      exact ih reads

theorem run_nil_complete {place : Position} (ends : r.advance ⟨.eof, place⟩ = .error program) :
    r.run ⟨[], .complete place⟩ = program := by
  simp only [run, run.runFrom, ends]

@[simp] theorem run_nil_failed (failure : Source.Failure) :
    r.run ⟨[], .failed failure⟩ = ⟨r.done, .failed failure⟩ := rfl

/-- Where a token cannot stand, it is blamed: the listed tokens are not the end of input. -/
theorem blamed_of_reads (more : ∀ t ∈ list, t.lexeme ≠ .eof) (reads : r.reads list = .error program) :
    Blamed program := by
  induction list generalizing r with
  | nil => cases reads
  | cons t list ih =>
    obtain ⟨here, later⟩ := List.forall_mem_cons.1 more
    simp only [Reading.reads] at reads
    cases step : r.advance t with
    | error program' =>
      rw [step] at reads
      cases reads
      exact blamed_of_advance step here
    | ok next =>
      rw [step] at reads
      exact ih later reads

end Reading

end Shiba.Stepwise

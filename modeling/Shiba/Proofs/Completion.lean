import Shiba.Proofs.RoundTrip.ExprText
import Shiba.Proofs.ViablePrefix

/-!
# Texts that only ended too early

Whatever a reading has open can be closed: an operand is filled in where one has to come, brackets,
headers and blocks are closed from the inside out.  `Now.closers` writes down these tokens, and
`Completes.closers` says that with them every reading comes to the end of a valid text.  So a text whose
failure says that it ended too early can be completed, and the statements that were complete stay
(`Program.exists_completion`).
-/

namespace Shiba

namespace Stepwise

open Shiba.Expr (unaryOp? binaryOp?)
open Shiba.Stmt (assignOp? endsAt)

/-! ## Tokens that close what is open -/

/-- An operand. -/
def zero : Lexeme := .number "0"

/-- A name. -/
def someName : Lexeme := .ident "a"

/-- The tokens that end an open block. -/
def Owner.closers : Owner → List Lexeme
  | .function (some _) .. => [.punct .rightBrace, .punct .rightBrace]
  | _ => [.punct .rightBrace]

/-- The tokens that end the open blocks. -/
def blockClosers (outer : List (Owner × Block)) : List Lexeme :=
  outer.flatMap fun level => level.1.closers

/-- The tokens that end the open brackets behind an operand. -/
def bracketClosers : List Pending → List Lexeme
  | [] => []
  | .bracket _ (.key ..) :: pending =>
    .punct .colon :: zero :: .punct .rightBrace :: bracketClosers pending
  | .bracket _ b :: pending => .punct b.wanted :: bracketClosers pending
  | _ :: pending => bracketClosers pending

/-- The tokens that end an expression up to its last operand. -/
def Look.closers (pending : List Pending) : Look → List Lexeme
  | .operand _ => zero :: bracketClosers pending
  | .item outside b => zero :: bracketClosers (.bracket outside b :: pending)
  | .name .. => .punct .dot :: someName :: bracketClosers pending
  | .suffix .. | .value .. => bracketClosers pending
  | .member .. => someName :: bracketClosers pending
  | .field .. => .punct .rightBrace :: bracketClosers pending
  | .colon .. => .punct .colon :: zero :: .punct .rightBrace :: bracketClosers pending

/-- The tokens that end a statement behind an expression, and the blocks around it. -/
def Head.closers (outer : List (Owner × Block)) : Head → List Lexeme
  | .list (.left _) => .punct .equal :: zero :: blockClosers outer
  | .list (.right ..) | .result _ => blockClosers outer
  | .condition .. | .loop _ | .target .. =>
    .punct .leftBrace :: .punct .rightBrace :: blockClosers outer

/-- The tokens that end the body of a function that has not been opened. -/
def bodyClosers (outer : List (Owner × Block)) (host : Option Members) : List Lexeme :=
  .punct .leftBrace :: (Owner.function host .start "" []).closers ++ blockClosers outer

/-- The tokens that end what has been read of a statement, and the blocks around it. -/
def Now.closers (outer : List (Owner × Block)) : Now → List Lexeme
  | .expr head pending look => look.closers pending ++ head.closers outer
  | .more (.left _) _ => .punct .equal :: zero :: blockClosers outer
  | .assigning .. => zero :: blockClosers outer
  | .importing _ | .importSlash .. => someName :: blockClosers outer
  | .functionName host _ =>
    someName :: .punct .leftParen :: .punct .rightParen :: bodyClosers outer host
  | .functionParen host .. => .punct .leftParen :: .punct .rightParen :: bodyClosers outer host
  | .param host .. | .paramEnd host .. => .punct .rightParen :: bodyClosers outer host
  | .functionBrace host .. => bodyClosers outer host
  | .structName _ =>
    someName :: .punct .leftBrace :: .punct .rightBrace :: blockClosers outer
  | .structBrace .. => .punct .leftBrace :: .punct .rightBrace :: blockClosers outer
  | .members _ => .punct .rightBrace :: blockClosers outer
  | .looping _ => zero :: .punct .leftBrace :: .punct .rightBrace :: blockClosers outer
  | .counter .. | .otherwise .. => .punct .leftBrace :: .punct .rightBrace :: blockClosers outer
  | .counterComma .. => someName :: .keyword .inWord :: zero :: .punct .leftBrace ::
      .punct .rightBrace :: blockClosers outer
  | .element .. => .keyword .inWord :: zero :: .punct .leftBrace :: .punct .rightBrace ::
      blockClosers outer
  | .start | .more (.right ..) _ | .importPart .. | .returning _ | .branches .. => blockClosers outer

/-! ## Completing a reading -/

/-- Tokens, wherever they stand, complete a reading: they lead it to the end of a valid text, of which
the statements that were complete are the first. -/
def Completes (ls : List Lexeme) (r : Reading) : Prop :=
  ∀ (list : List Token) (place : Position), list.map (·.lexeme) = ls →
    ∃ more, r.run ⟨list, .complete place⟩ = ⟨r.done ++ more, .complete place⟩

variable {l : Lexeme} {ls : List Lexeme} {r r' : Reading} {outer : List (Owner × Block)} {before : Block}
  {head : Head} {pending : List Pending} {look : Look} {mode : Mode} {e : Expr} {t : Token}

namespace Completes

/-- One more token in front. -/
theorem cons (step : ∀ p, ∃ r', r.advance ⟨l, p⟩ = .ok r' ∧ Completes ls r') : Completes (l :: ls) r := by
  rintro (- | ⟨⟨l', p⟩, list⟩) place ⟨⟩
  obtain ⟨r', advance, rest⟩ := step p
  obtain ⟨more, run⟩ := rest list place rfl
  obtain ⟨more', longer⟩ := Reading.done_prefix_of_advance advance
  refine ⟨more' ++ more, ?_⟩
  rw [← List.append_assoc, longer, ← run]
  simp only [Reading.run, Reading.run.runFrom, advance]

/-- What completes a reading also completes one that does the same with the first token. -/
theorem congr (completes : Completes ls r') (done : r.done <+: r'.done)
    (same : ∀ p, r.advance ⟨Lexeme.first ls, p⟩ = r'.advance ⟨Lexeme.first ls, p⟩) : Completes ls r := by
  intro list place spelled
  obtain ⟨more', longer⟩ := done
  obtain ⟨more, run⟩ := completes list place spelled
  refine ⟨more' ++ more, ?_⟩
  rw [← List.append_assoc, longer, ← run]
  cases list with
  | nil =>
    subst spelled
    simp only [Reading.run, Reading.run.runFrom]
    rw [show r.advance ⟨.eof, place⟩ = r'.advance ⟨.eof, place⟩ from same place]
  | cons t list =>
    subst spelled
    simp only [Reading.run, Reading.run.runFrom]
    rw [show r.advance t = r'.advance t from same t.position]

end Completes

/-! ## Blocks -/

/-- A statement can end here. -/
def Now.Settled (now : Now) : Prop := now = .start ∨ ∃ s, now.stmt? = some s

/-- Where a statement can end, a closing brace and the end of input end it. -/
theorem Now.Settled.advance (settled : r.now.Settled) (ends : l = .eof ∨ l = .punct .rightBrace)
    (p : Position) : ∃ body, r.done <+: (Reading.mk r.outer body .start).done ∧
      r.advance ⟨l, p⟩ = Reading.begin ⟨r.outer, body, .start⟩ ⟨l, p⟩ := by
  have offers : r.advance ⟨l, p⟩ = r.offer ⟨l, p⟩ := by
    rcases ends with rfl | rfl <;> simp [Reading.advance]
  rcases settled with start | ⟨s, finished⟩
  · refine ⟨r.before, List.prefix_rfl, ?_⟩
    rw [offers, Reading.offer, start]
    cases r
    cases start
    rfl
  · have closes : endsAt l = true := by rcases ends with rfl | rfl <;> rfl
    exact ⟨r.before ++ [s], Reading.done_prefix_add r s,
      offers.trans (Reading.offer_of_endsAt finished closes)⟩

theorem first_blockClosers (outer : List (Owner × Block)) :
    Lexeme.first (blockClosers outer) = .eof ∨
      Lexeme.first (blockClosers outer) = .punct .rightBrace := by
  rcases outer with - | ⟨⟨host, p, name, params⟩ | _ | _ | _ | _, before⟩
  case nil => exact .inl rfl
  case cons.function => cases host <;> exact .inr rfl
  all_goals exact .inr rfl

namespace Completes

/-- Where a statement can end, the open blocks can be ended. -/
theorem blocks {now : Now} (settled : now.Settled) : Completes (blockClosers outer) ⟨outer, before, now⟩ := by
  induction outer generalizing before now with
  | nil =>
    rintro (- | -) place ⟨⟩
    obtain ⟨body, ⟨more, longer⟩, ends⟩ :=
      Now.Settled.advance (r := ⟨[], before, now⟩) settled (.inl rfl) place
    rw [Reading.begin_eof rfl, if_pos rfl] at ends
    exact ⟨more, by rw [Reading.run_nil_complete ends, longer]; rfl⟩
  | cons level outer ih =>
    obtain ⟨owner, statements⟩ := level
    have closes : ∀ p, ∃ body, Reading.advance ⟨(owner, statements) :: outer, before, now⟩
        ⟨.punct .rightBrace, p⟩ = .ok (Reading.closeBlock ⟨outer, statements, .start⟩ body owner) := by
      intro p
      obtain ⟨body, -, ends⟩ := Now.Settled.advance
        (r := ⟨(owner, statements) :: outer, before, now⟩) settled (.inr rfl) p
      exact ⟨body, ends⟩
    cases owner with
    | function host place name params =>
      cases host with
      | none => exact cons fun p => (closes p).elim fun body ends => ⟨_, ends, ih (.inl rfl)⟩
      | some m =>
        -- behind a method, the struct is still open
        refine cons fun p => (closes p).elim fun body ends => ⟨_, ends, ?_⟩
        exact cons fun p => ⟨_, rfl, ih (.inl rfl)⟩
    | branch => exact cons fun p => (closes p).elim fun body ends => ⟨_, ends, ih (.inr ⟨_, rfl⟩)⟩
    | otherwise => exact cons fun p => (closes p).elim fun body ends => ⟨_, ends, ih (.inl rfl)⟩
    | loop => exact cons fun p => (closes p).elim fun body ends => ⟨_, ends, ih (.inl rfl)⟩
    | forIn => exact cons fun p => (closes p).elim fun body ends => ⟨_, ends, ih (.inl rfl)⟩

/-- Where a block has to come, it can be opened and ended. -/
theorem block {now : Now} (owner : Owner) (opens : ∀ p, Reading.advance ⟨outer, before, now⟩
      ⟨.punct .leftBrace, p⟩ = .ok ⟨(owner, before) :: outer, [], .start⟩) :
    Completes (.punct .leftBrace :: owner.closers ++ blockClosers outer) ⟨outer, before, now⟩ := by
  refine cons fun p => ⟨_, opens p, ?_⟩
  exact (blocks (.inl rfl) : Completes (blockClosers ((owner, before) :: outer)) _)

end Completes

/-! ## Expressions -/

/-- An operand does not go on with the token, and the token is not skipped. -/
def Stops (l : Lexeme) : Prop := ¬Extending l ∧ l ≠ .newline

instance (l : Lexeme) : Decidable (Stops l) := inferInstanceAs (Decidable (_ ∧ _))

theorem Stops.suffixMove {p : Position} (stops : Stops l) :
    suffixMove mode e pending ⟨l, p⟩ = valueMove mode e pending ⟨l, p⟩ :=
  suffixMove_of_not_extending stops.1

theorem stops_wanted (b : Bracket) : Stops (.punct b.wanted) := by
  cases b <;> exact of_decide_eq_true rfl

theorem stops_bracketClosers (pending : List Pending) (stops : Stops (Lexeme.first ls)) :
    Stops (Lexeme.first (bracketClosers pending ++ ls)) := by
  fun_induction bracketClosers pending with
  | case1 => exact stops
  | case2 outside place entries => exact stops_wanted (.key place entries)
  | case3 outside b => exact stops_wanted b
  | case4 frame pending _ _ ih => exact ih

theorem stops_blockClosers (outer : List (Owner × Block)) : Stops (Lexeme.first (blockClosers outer)) := by
  rcases first_blockClosers outer with first | first <;> rw [first] <;> exact of_decide_eq_true rfl

/-- The mark that a bracket wants. -/
theorem suffixMove_wanted (outside : Mode) (b : Bracket) (pending : List Pending) (mode : Mode) (e : Expr)
    (p : Position) : suffixMove mode e (.bracket outside b :: pending) ⟨.punct b.wanted, p⟩ =
      b.closing outside e pending := by
  have stops := stops_wanted b
  rw [stops.suffixMove, valueMove, binaryOp?_of_not_extending stops.1]
  cases b <;> rfl

theorem operandMove_zero (mode : Mode) (pending : List Pending) (p : Position) :
    operandMove mode pending ⟨zero, p⟩ = .take pending (.suffix mode (.literal p (.int 0))) := rfl

namespace Completes

/-- One more token in front that the expression goes on with. -/
theorem take (mark : l ≠ .newline)
    (step : ∀ p, ∃ pending' look', look.move pending ⟨l, p⟩ = .take pending' look' ∧
      Completes ls ⟨outer, before, .expr head pending' look'⟩) :
    Completes (l :: ls) ⟨outer, before, .expr head pending look⟩ := by
  refine cons fun p => ?_
  obtain ⟨pending', look', move, completes⟩ := step p
  refine ⟨_, ?_, completes⟩
  simp only [Reading.advance, mark, false_and, if_false, Reading.offer, Reading.inExpr, move]
  rfl

/-- What completes an expression also completes one that does the same with the first token. -/
theorem of_move {pending' : List Pending} {look' : Look}
    (completes : Completes ls ⟨outer, before, .expr head pending' look'⟩)
    (mark : Lexeme.first ls ≠ .newline)
    (same : ∀ p, look.move pending ⟨Lexeme.first ls, p⟩ = look'.move pending' ⟨Lexeme.first ls, p⟩) :
    Completes ls ⟨outer, before, .expr head pending look⟩ := by
  refine completes.congr List.prefix_rfl fun p => ?_
  simp only [Reading.advance, mark, false_and, if_false, Reading.offer, Reading.inExpr, same]
  rfl

/-- Behind an operand, the open brackets can be closed. -/
theorem brackets (rest : ∀ mode e, Completes ls ⟨outer, before, .expr head [] (.suffix mode e)⟩)
    (stops : Stops (Lexeme.first ls)) (pending : List Pending) (mode : Mode) (e : Expr) :
    Completes (bracketClosers pending ++ ls) ⟨outer, before, .expr head pending (.suffix mode e)⟩ := by
  induction pending generalizing mode e with
  | nil => exact rest mode e
  | cons frame pending ih =>
    have behind := stops_bracketClosers pending stops
    cases frame with
    | unary place op =>
      refine (ih mode (.unary place op e)).of_move behind.2 fun p => ?_
      simp only [Look.move, behind.suffixMove, valueMove]
    | binary place op left =>
      refine (ih mode (.binary place op left e)).of_move behind.2 fun p => ?_
      simp only [Look.move, behind.suffixMove, valueMove, binaryOp?_of_not_extending behind.1]
    | bracket outside b =>
      have wanted := suffixMove_wanted outside b pending mode e
      cases b with
      | key place entries =>
        -- a value has to come behind the key
        refine take (by simp) fun p => ⟨_, _, wanted p, ?_⟩
        refine take (by simp [zero]) fun p => ⟨_, _, operandMove_zero .bracketed _ p, ?_⟩
        have value := suffixMove_wanted outside (.value place entries e) pending .bracketed
        exact take (by simp) fun p => ⟨_, _, value _ p, ih outside _⟩
      | _ => exact take (by simp) fun p => ⟨_, _, wanted p, ih outside _⟩

/-- What an expression goes on with can be filled in, and the open brackets can be closed. -/
theorem operand (rest : ∀ mode e, Completes ls ⟨outer, before, .expr head [] (.suffix mode e)⟩)
    (stops : Stops (Lexeme.first ls)) (pending : List Pending) (look : Look) :
    Completes (look.closers pending ++ ls) ⟨outer, before, .expr head pending look⟩ := by
  have closed := brackets rest stops
  cases look with
  | operand mode => exact take nofun fun p => ⟨_, _, operandMove_zero mode pending p, closed pending _ _⟩
  | item outside b =>
    have item : ∀ p, itemMove outside b pending ⟨zero, p⟩ =
        operandMove .bracketed (.bracket outside b :: pending) ⟨zero, p⟩ := by
      intro p
      cases b <;> rfl
    refine take nofun fun p => ⟨_, _, (item p).trans (operandMove_zero _ _ p), ?_⟩
    exact closed (.bracket outside b :: pending) .bracketed _
  | name mode place name =>
    refine take nofun fun p => ⟨pending, .member mode p (.ident place name), rfl, ?_⟩
    exact take nofun fun p => ⟨_, _, rfl, closed _ _ _⟩
  | suffix mode e => exact closed pending mode e
  | value mode e =>
    have behind := stops_bracketClosers pending stops
    exact (closed pending mode e).of_move behind.2 fun p => behind.suffixMove.symm
  | member mode place e => exact take nofun fun p => ⟨_, _, rfl, closed _ _ _⟩
  | field outside place name brace fields => exact take nofun fun p => ⟨_, _, rfl, closed _ _ _⟩
  | colon outside place name brace fields field =>
    refine take nofun fun p => ⟨_, _, rfl, ?_⟩
    have closes := closed (.bracket outside (.field place name brace fields field) :: pending) .bracketed
    exact take nofun fun p => ⟨_, _, operandMove_zero .bracketed _ p, closes _⟩

end Completes

/-! ## Statements -/

theorem stops_headClosers (head : Head) (outer : List (Owner × Block)) :
    Stops (Lexeme.first (head.closers outer)) := by
  rcases head with (_ | _) | _ | _ | _ | _
  case list.right | result => exact stops_blockClosers outer
  all_goals exact of_decide_eq_true rfl

namespace Completes

/-- Behind an assignment operator, a value can be filled in. -/
theorem assigned (place : Position) (op : AssignOp) (left : List Expr) :
    Completes (zero :: blockClosers outer) ⟨outer, before, .assigning place op left⟩ := by
  let value (p : Position) : Look := .suffix .plain (.literal p (.int 0))
  exact cons fun p => ⟨⟨outer, before, .expr (.list (.right place op left [])) [] (value p)⟩, rfl,
    blocks (.inr ⟨_, rfl⟩)⟩

/-- Behind an expression, the statement and the blocks around it can be ended. -/
theorem ended (head : Head) (mode : Mode) (e : Expr) :
    Completes (head.closers outer) ⟨outer, before, .expr head [] (.suffix mode e)⟩ := by
  cases head with
  | list side =>
    cases side with
    | left _ => exact cons fun _ => ⟨_, rfl, assigned _ _ _⟩
    | right _ _ _ _ => exact blocks (.inr ⟨_, rfl⟩)
  | result place => exact blocks (.inr ⟨_, rfl⟩)
  | condition place branches => exact block (.branch place branches e) fun _ => rfl
  | loop place => exact block (.loop place e) fun _ => rfl
  | target place counter element => exact block (.forIn place e counter element) fun _ => rfl

/-- Inside an expression of a statement. -/
theorem expr (head : Head) (pending : List Pending) (look : Look) :
    Completes (look.closers pending ++ head.closers outer) ⟨outer, before, .expr head pending look⟩ :=
  operand (ended head) (stops_headClosers head outer) pending look

/-- The body of a function can be opened and ended. -/
theorem body (host : Option Members) (place : Position) (name : String) (params : List String) :
    Completes (bodyClosers outer host) ⟨outer, before, .functionBrace host place name params⟩ := by
  have completes : Completes (.punct .leftBrace :: (Owner.function host place name params).closers ++
      blockClosers outer) ⟨outer, before, .functionBrace host place name params⟩ :=
    block (.function host place name params) fun _ => rfl
  cases host <;> exact completes

/-- Behind the name of a function, its parameters can be listed. -/
theorem params (host : Option Members) (place : Position) (name : String) :
    Completes (.punct .leftParen :: .punct .rightParen :: bodyClosers outer host)
      ⟨outer, before, .functionParen host place name⟩ := by
  refine cons fun _ => ⟨_, rfl, ?_⟩
  exact cons fun _ => ⟨_, rfl, body host place name []⟩

/-- Where the members of a struct are listed, it can be ended. -/
theorem members (m : Members) :
    Completes (.punct .rightBrace :: blockClosers outer) ⟨outer, before, .members m⟩ :=
  cons fun _ => ⟨_, rfl, blocks (.inl rfl)⟩

/-- Behind the names of a loop, its target can be filled in. -/
theorem target (place : Position) (counter : Ident) (comma : Position) (element : Ident) :
    Completes (.keyword .inWord :: zero :: .punct .leftBrace :: .punct .rightBrace :: blockClosers outer)
      ⟨outer, before, .element place counter comma element⟩ :=
  cons fun _ => ⟨_, rfl, expr (.target place counter element) [] (.operand .heading)⟩

/-- Every reading can be completed. -/
theorem closers (r : Reading) : Completes (r.now.closers r.outer) r := by
  rcases r with ⟨outer, before, now⟩
  cases now with
  | start => exact blocks (.inl rfl)
  | expr head pending look => exact expr head pending look
  | more side e =>
    cases side with
    | left _ => exact cons fun _ => ⟨_, rfl, assigned _ _ _⟩
    | right _ _ _ _ => exact blocks (.inr ⟨_, rfl⟩)
  | assigning place op left => exact assigned place op left
  | importing place => exact cons fun _ => ⟨_, rfl, blocks (.inr ⟨_, rfl⟩)⟩
  | importPart place parts => exact blocks (.inr ⟨_, rfl⟩)
  | importSlash place parts => exact cons fun _ => ⟨_, rfl, blocks (.inr ⟨_, rfl⟩)⟩
  | functionName host place => exact cons fun _ => ⟨_, rfl, params host place _⟩
  | functionParen host place name => exact params host place name
  | param host place name before => exact cons fun _ => ⟨_, rfl, body host place name before⟩
  | paramEnd host place name params => exact cons fun _ => ⟨_, rfl, body host place name params⟩
  | functionBrace host place name params => exact body host place name params
  | structName place =>
    refine cons fun _ => ⟨_, rfl, ?_⟩
    exact cons fun _ => ⟨_, rfl, members _⟩
  | structBrace place name => exact cons fun _ => ⟨_, rfl, members _⟩
  | members m => exact members m
  | returning place => exact blocks (.inr ⟨_, rfl⟩)
  | looping place =>
    exact cons fun p => ⟨_, rfl, expr (.loop place) [] (.suffix .heading (.literal p (.int 0)))⟩
  | counter place counter =>
    exact block (.loop place (.ident counter.position counter.name)) fun _ => rfl
  | counterComma place counter comma => exact cons fun _ => ⟨_, rfl, target place counter comma _⟩
  | element place counter comma element => exact target place counter comma element
  | branches place before => exact blocks (.inr ⟨_, rfl⟩)
  | otherwise place branches => exact block (.otherwise place branches) fun _ => rfl

end Completes

/-! ## Writing the tokens down -/

theorem plain_zero : zero.Plain := ⟨rfl, rfl⟩

theorem plain_someName : someName.Plain := ⟨rfl, rfl⟩

theorem plain_inWord : (Lexeme.keyword .inWord).Plain := ⟨trivial, rfl⟩

theorem plain_ownerClosers (owner : Owner) : ∀ l ∈ owner.closers, l.Plain := by
  unfold Owner.closers
  split <;> simp [Expr.plain_mark]

theorem plain_blockClosers (outer : List (Owner × Block)) : ∀ l ∈ blockClosers outer, l.Plain := by
  intro l member
  obtain ⟨level, -, closer⟩ := List.mem_flatMap.1 member
  exact plain_ownerClosers level.1 l closer

theorem plain_bracketClosers (pending : List Pending) : ∀ l ∈ bracketClosers pending, l.Plain := by
  fun_induction bracketClosers pending with
  | case1 => nofun
  | case2 outside place entries pending ih => simpa [Expr.plain_mark, plain_zero] using ih
  | case3 outside b pending _ ih => simpa [Expr.plain_mark] using ih
  | case4 frame pending _ _ ih => exact ih

theorem plain_lookClosers (look : Look) (pending : List Pending) : ∀ l ∈ look.closers pending, l.Plain := by
  have inside := plain_bracketClosers pending
  cases look with
  | item outside b =>
    simpa [Look.closers, plain_zero] using plain_bracketClosers (.bracket outside b :: pending)
  | _ => simpa [Look.closers, Expr.plain_mark, plain_zero, plain_someName] using inside

theorem plain_headClosers (head : Head) (outer : List (Owner × Block)) :
    ∀ l ∈ head.closers outer, l.Plain := by
  have inside := plain_blockClosers outer
  rcases head with (_ | _) | _ | _ | _ | _ <;>
    simpa [Head.closers, Expr.plain_mark, plain_zero] using inside

theorem plain_bodyClosers (outer : List (Owner × Block)) (host : Option Members) :
    ∀ l ∈ bodyClosers outer host, l.Plain :=
  List.forall_mem_append.2 ⟨List.forall_mem_cons.2 ⟨Expr.plain_mark _, plain_ownerClosers _⟩,
    plain_blockClosers outer⟩

/-- The tokens that complete a reading can be written down. -/
theorem plain_closers (now : Now) (outer : List (Owner × Block)) : ∀ l ∈ now.closers outer, l.Plain := by
  have blocks := plain_blockClosers outer
  have body := plain_bodyClosers outer
  cases now with
  | expr head pending look =>
    exact List.forall_mem_append.2 ⟨plain_lookClosers look pending, plain_headClosers head outer⟩
  | more side e => cases side <;> simpa [Now.closers, Expr.plain_mark, plain_zero] using blocks
  | functionName host | functionParen host | param host | paramEnd host | functionBrace host =>
    simpa [Now.closers, Expr.plain_mark, plain_someName] using body host
  | _ => simpa [Now.closers, Expr.plain_mark, plain_zero, plain_someName, plain_inWord] using blocks

/-- Behind a comment newlines are skipped. -/
theorem skips_of_comment {list : List Token} (reads : r.reads list = .ok r')
    (comment : ∃ t ∈ list.getLast?, ∃ text, t.lexeme = .comment text) : r'.now.skips = true := by
  obtain ⟨⟨l, p⟩, last, text, rfl⟩ := comment
  obtain ⟨before, rfl⟩ := List.getLast?_eq_some_iff.1 last
  cases first : r.reads before with
  | error program =>
    rw [Reading.reads_append_error first] at reads
    cases reads
  | ok next =>
    rw [Reading.reads_append_ok first, Reading.reads] at reads
    rcases next.advance_comment p with never | ⟨behind, always⟩
    · obtain ⟨program, error⟩ := never text
      rw [error] at reads
      cases reads
    · obtain ⟨step, skips⟩ := always text
      rw [step] at reads
      cases reads
      exact skips

/-- A text that completes a reading, and does not run on into a comment in front of it. -/
theorem exists_written (r : Reading) {comment : Prop} (skips : comment → r.now.skips = true) :
    ∃ cs ls, Completes ls r ∧ Written cs ls ∧ Parted cs ∧ (comment → ∀ c ∈ cs.head?, c = '\n') := by
  have completes := Completes.closers r
  have joinable : Lexeme.Joinable (r.now.closers r.outer) := by
    simpa using Lexeme.joins_of_plain (plain_closers r.now r.outer) [] trivial
  by_cases behind : comment
  · have newline : Completes (.newline :: r.now.closers r.outer) r :=
      Completes.cons fun p => ⟨r, by simp [Reading.advance, skips behind], completes⟩
    have first : ∀ c ∈ (Lexeme.join (.newline :: r.now.closers r.outer)).head?, c = '\n' := by
      rintro c ⟨⟩
      rfl
    exact ⟨_, _, newline, (joinable.cons (l := .newline) ⟨trivial, rfl⟩).written,
      fun c member => .inr (first c member), fun _ => first⟩
  · refine ⟨' ' :: Lexeme.join (r.now.closers r.outer), _, completes, .blank rfl joinable.written, ?_,
      fun comment => absurd comment behind⟩
    rintro c ⟨⟩
    exact .inl rfl

end Stepwise

namespace Program

open Stepwise

variable {s : String} {fault : Source.Grammatical} {place : Position}

/-- A text whose failure says that it ended too early is a sequence of tokens that can all stand where they
do. -/
theorem reads_of_incomplete (error : parse s = .error ⟨.grammatical fault, place⟩)
    (incomplete : fault.incomplete = true) :
    ∃ r q, Reading.initial.reads (Tokens.ofText s).list = .ok r ∧
      (Tokens.ofText s).ending = .complete q ∧ (ofText s).statements = r.done := by
  have failed := parse_eq_error_iff.1 error
  have program := ofText_eq_run s
  cases reads : Reading.initial.reads (Tokens.ofText s).list with
  | error program' =>
    obtain ⟨failure, failed', unflagged⟩ :=
      Reading.blamed_of_reads (fun _ member => Reader.ne_eof_of_mem_tokens member) reads
    rw [program, Reading.run_of_reads_error reads, failed'] at failed
    cases failed
    cases incomplete.symm.trans unflagged
  | ok r =>
    rw [Reading.run_of_reads_ok reads] at program
    cases ending : (Tokens.ofText s).ending with
    | failed failure =>
      obtain ⟨f, lexical⟩ := Reader.tokens_lexical ending
      rw [program, ending, Reading.run_nil_failed] at failed
      cases failed
      cases lexical
    | complete q =>
      obtain ⟨whole, ends, statements, -⟩ := r.advance_eof q
      rw [ending, Reading.run_nil_complete ends] at program
      rw [program] at failed ⊢
      exact ⟨r, q, rfl, rfl, statements _ failed⟩

/-- A text that is refused only because it ended too early can be completed, and the statements that were
complete stay the first ones. -/
theorem exists_completion (error : parse s = .error ⟨.grammatical fault, place⟩)
    (incomplete : fault.incomplete = true) :
    ∃ t block, parse (s ++ t) = .ok block ∧ (ofText s).statements <+: block := by
  obtain ⟨r, q, reads, ending, statements⟩ := reads_of_incomplete error incomplete
  obtain ⟨cs, ls, completes, written, parted, line⟩ := exists_written r (skips_of_comment reads)
  have spells : (Reader.mk cs q).tokens.Spells ls := written.scan_spells (Nat.lt_succ_self _) q
  obtain ⟨q', ending'⟩ := spells.complete
  obtain ⟨more, run⟩ := completes _ q' spells.lexemes
  have tokens : Tokens.ofText (s ++ String.ofList cs) =
      ⟨(Tokens.ofText s).list ++ (Reader.mk cs q).tokens.list, .complete q'⟩ := by
    rw [tokens_ofText_append, String.toList_ofList, ← ending']
    exact Reader.tokens_append parted ending fun t last comment => line ⟨t, last, comment⟩
  refine ⟨String.ofList cs, r.done ++ more, parse_eq_ok_iff.2 ?_, more, by rw [statements]⟩
  rw [ofText_eq_run, tokens, Reading.run_append reads, run]
  exact ⟨rfl, q', rfl⟩

/-- A block that is open behind a comment. -/
theorem exists_completion_comment :
    parse "a = 1\nif a \x7b # one" = .error ⟨.grammatical .unterminatedBlock, ⟨2, 13, 18⟩⟩ ∧
      ∃ t block, parse ("a = 1\nif a \x7b # one" ++ t) = .ok block ∧
        (ofText "a = 1\nif a \x7b # one").statements <+: block :=
  ⟨rfl, exists_completion rfl rfl⟩

end Program

end Shiba

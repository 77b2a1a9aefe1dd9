import Shiba.Proofs.RoundTrip.ExprParse
import Shiba.Proofs.RoundTrip.StmtText
import Shiba.Program

/-!
# Written statements are read back

The parser of statements takes the tokens of a written statement and answers that statement, up to
positions, as long as nothing behind it would go on with it: `Follows`.  There is one lemma for each
kind of statement, about the parser of the blocks one level deeper, and `reads_parse` ties the levels
together by induction on the fuel.

* `Program.parse_block_text` is the statement about the text of a sequence of statements.
* `Program.parse_expr` is about a text that spells one expression and nothing else.
-/

namespace Shiba.Stmt

open Shiba.Parser
open Lexeme (first)

/-- Two statements that differ in positions only. -/
def Same (s s' : Stmt) : Prop := s.erase = s'.erase

variable {st : Style} {breaks n fuel : Nat} {stmt : Parser Stmt} {s : Stmt} {rest : List Lexeme}

/-! ## What stands behind a statement -/

/-- A token that introduces no further branch of a conditional. -/
def NoBranch (l : Lexeme) : Prop :=
  l ≠ .newline ∧ l ≠ .keyword .elifWord ∧ l ≠ .keyword .elseWord

theorem noBranch_of_startsStmt {l : Lexeme} (starts : startsStmt l = true) : NoBranch l := by
  refine ⟨?_, ?_, ?_⟩ <;>
  · rintro rfl
    cases starts

/-- What stands behind a statement: a newline, and then no further branch. -/
def Follows (rest : List Lexeme) : Prop := ∃ tail, rest = .newline :: tail ∧ NoBranch (first tail)

theorem first_of_startsStmt {ls rest : List Lexeme} (starts : startsStmt (first ls) = true) :
    first (ls ++ rest) = first ls := by
  apply first_append
  intro none
  rw [none] at starts
  cases starts

theorem noBranch_lines {block : Block} (writable : ∀ s ∈ block, s.Writable st.decimal)
    {tail : List Lexeme} (other : NoBranch (first tail)) :
    NoBranch (first (lines st breaks block ++ tail)) := by
  cases block with
  | nil => exact other
  | cons s block =>
    have starts : startsStmt (first (s.tokens st breaks)) = true :=
      startsStmt_tokens (writable s List.mem_cons_self)
    rw [lines, List.append_assoc, first_of_startsStmt starts]
    exact noBranch_of_startsStmt starts

/-- A parser reads the statements of less than `n` tokens. -/
def Reads (st : Style) (breaks : Nat) (parser : Parser Stmt) (n : Nat) : Prop :=
  ∀ ⦃s : Stmt⦄ ⦃rest : List Lexeme⦄, s.Writable st.decimal → (s.tokens st breaks).length < n →
    Follows rest → parser.Takes (s.tokens st breaks) rest (Same · s)

theorem stops_of_endsAt {l : Lexeme} {need : Nat} (ends : endsAt l = true) :
    Expr.Stops .plain need l := by
  unfold endsAt at ends
  split at ends
  · exact ⟨nofun, nofun, ⟨nofun, nofun, nofun⟩, nofun⟩
  · exact Expr.stops_eof
  · exact Expr.stops_closing rfl
  · exact ⟨nofun, nofun, ⟨nofun, nofun, nofun⟩, nofun⟩
  · cases ends

theorem endsAt_of_starts {l : Lexeme} {need : Nat} (starts : Expr.Starts need l) :
    endsAt l = false := by
  unfold endsAt
  split <;> first | rfl | exact absurd rfl (starts.ne rfl rfl)

/-! ## Expressions and assignments -/

theorem assignOp?_of_starts {l : Lexeme} (starts : Expr.Starts 0 l) : assignOp? l = none := by
  cases l with
  | punct mark => cases mark <;> first | rfl | exact absurd rfl (starts.ne rfl rfl)
  | _ => rfl

/-- Expressions divided by commas.  The induction is on the expressions. -/
theorem takes_exprList {es : List Expr} {bound : Nat} (some : es ≠ [])
    (writable : ∀ e ∈ es, e.Writable st.decimal) (room : (Expr.listTokens st es).length < bound)
    (enough : es.length ≤ fuel) (stops : Expr.Stops .plain 0 (first rest))
    (last : first rest ≠ .punct .comma) :
    (exprList bound fuel).Takes (Expr.listTokens st es) rest (List.Forall₂ Expr.Same · es) := by
  induction es generalizing fuel with
  | nil => exact absurd rfl some
  | cons e es ih =>
    cases fuel with
    | zero => cases enough
    | succ fuel =>
      have ⟨here, later⟩ := List.forall_mem_cons.1 writable
      cases es with
      | nil =>
        simp only [Expr.listTokens, List.map_cons, List.map_nil, commas_singleton] at room ⊢
        apply (Expr.reads_parse bound rfl here (Expr.fits_tokens ..) room stops).bind_last
        intro x same
        exact notAtMark_bind nofun last (takes_pure (.cons same .nil))
      | cons e' es =>
        have starts := starts_exprs (List.cons_ne_nil e' es) later rest
        simp only [Expr.listTokens, List.map_cons, commas_cons_cons, List.length_append,
          List.length_cons] at ih room starts ⊢
        apply (Expr.reads_parse bound rfl here (Expr.fits_tokens ..) (by omega)
          (Expr.stops_closing rfl)).bind
        intro x same
        refine atMark_bind rfl (next_bind fun _ => peek_bind nofun fun place => ?_)
        simp only [assignOp?_of_starts starts, endsAt_of_starts starts]
        apply (ih nofun later (by omega) (Nat.le_of_succ_le_succ enough)).bind_last
        intro xs sames
        exact takes_pure (.cons same sames)

theorem forall₂_singleton {x : List Expr} {e : Expr} (same : List.Forall₂ Expr.Same x [e]) :
    ∃ y, x = [y] ∧ y.Same e := by
  rcases same with _ | ⟨here, ⟨⟩⟩
  exact ⟨_, rfl, here⟩

/-- A statement that starts like an expression. -/
theorem takes_simple {ls : List Lexeme} {P : Stmt → Prop} (starts : Expr.Starts 0 (first (ls ++ rest)))
    (takes : (simpleStatement fuel).Takes ls rest P) : (parseLevel stmt fuel).Takes ls rest P := by
  refine peek_bind nofun fun place => ?_
  simp only
  split <;> first | exact takes | (next word => exact absurd word (starts.ne rfl rfl))

theorem assignOp?_of_endsAt {l : Lexeme} (ends : endsAt l = true) :
    assignOp? l = none ∧ l ≠ .punct .comma := by
  unfold endsAt at ends
  split at ends <;> first | exact ⟨rfl, nofun⟩ | cases ends

theorem takes_expr {e : Expr} (writable : e.Writable st.decimal)
    (room : (e.tokens st 0).length < fuel) (ends : endsAt (first rest) = true) :
    (simpleStatement fuel).Takes (e.tokens st 0) rest (Same · (.expr e)) := by
  have ⟨noAssign, noComma⟩ := assignOp?_of_endsAt ends
  have alone : Expr.listTokens st [e] = e.tokens st 0 := commas_singleton _
  rw [← alone] at room ⊢
  apply (takes_exprList (List.cons_ne_nil e []) (List.forall_mem_singleton.2 writable) room
    (Nat.one_le_of_lt room) (stops_of_endsAt ends) noComma).bind_last
  intro xs sames
  obtain ⟨x, rfl, same⟩ := forall₂_singleton sames
  refine peek_bind nofun fun place => ?_
  simp only [List.nil_append, noAssign]
  exact takes_pure (congrArg Stmt.expr same)

theorem stops_assign (op : AssignOp) : Expr.Stops .plain 0 (.punct op.mark) ∧
    Lexeme.punct op.mark ≠ .punct .comma := by
  rcases op with _ | _ | op
  · exact ⟨⟨nofun, nofun, ⟨nofun, nofun, nofun⟩, nofun⟩, nofun⟩
  · exact ⟨⟨nofun, nofun, ⟨nofun, nofun, nofun⟩, nofun⟩, nofun⟩
  · cases op <;> exact ⟨⟨nofun, nofun, ⟨nofun, nofun, nofun⟩, nofun⟩, nofun⟩

theorem length_le_listTokens {es : List Expr} (writable : ∀ e ∈ es, e.Writable st.decimal) :
    es.length ≤ (Expr.listTokens st es).length := by
  have all := length_le_commas (List.forall_mem_map.2 fun e member =>
    ne_nil_of_first ((Expr.starts_tokens (writable e member) 0).ne rfl rfl))
  rwa [List.length_map] at all

theorem takes_assign {p : Position} {op : AssignOp} {left right : List Expr} (someLeft : left ≠ [])
    (someRight : right ≠ []) (writableLeft : ∀ e ∈ left, e.Writable st.decimal)
    (writableRight : ∀ e ∈ right, e.Writable st.decimal)
    (room : (Expr.listTokens st left ++ .punct op.mark :: Expr.listTokens st right).length < fuel)
    (ends : endsAt (first rest) = true) :
    (simpleStatement fuel).Takes
      (Expr.listTokens st left ++ .punct op.mark :: Expr.listTokens st right) rest
      (Same · (.assign p op left right)) := by
  have ⟨stops, noComma⟩ := stops_assign op
  have ⟨_, noComma'⟩ := assignOp?_of_endsAt ends
  have starts := starts_exprs someRight writableRight rest
  rw [List.length_append, List.length_cons] at room
  have countLeft := length_le_listTokens writableLeft
  have countRight := length_le_listTokens writableRight
  have leftSide : (exprList fuel fuel).Takes (Expr.listTokens st left)
      (.punct op.mark :: Expr.listTokens st right ++ rest) (List.Forall₂ Expr.Same · left) :=
    takes_exprList someLeft writableLeft (by omega) (by omega) stops noComma
  apply leftSide.bind
  intro xs samesLeft
  refine peek_bind_cons fun place => ?_
  simp only [assignOp?, AssignOp.ofMark?_mark]
  refine next_bind fun _ => peek_bind nofun fun _ => ?_
  simp only [endsAt_of_starts starts, Bool.false_eq_true, if_false]
  apply (takes_exprList someRight writableRight (by omega) (by omega) (stops_of_endsAt ends)
    noComma').bind_last
  intro ys samesRight
  refine takes_pure ?_
  rw [Same, erase, erase, Expr.eraseAll_congr samesLeft, Expr.eraseAll_congr samesRight]

/-! ## Blocks -/

theorem length_le_lines (block : Block) : block.length ≤ (lines st breaks block).length := by
  induction block with
  | nil => exact Nat.zero_le _
  | cons s block ih =>
    rw [lines, List.length_append, List.length_cons, List.length_cons]
    omega

theorem length_le_fieldLines (fields : List String) : fields.length ≤ (fieldLines fields).length := by
  induction fields with
  | nil => exact Nat.zero_le _
  | cons field fields ih =>
    rw [fieldLines, List.length_cons, List.length_cons, List.length_cons]
    omega

theorem length_le_methodLines (methods : List FunctionDecl) :
    methods.length ≤ (methodLines st breaks methods).length := by
  induction methods with
  | nil => exact Nat.zero_le _
  | cons method methods ih =>
    rw [methodLines, List.length_append, List.length_cons, List.length_cons]
    omega

theorem length_le_branchTokens {lead : List Lexeme} (more : List (Expr × List Stmt)) :
    more.length ≤ (branchTokens st breaks lead more).length := by
  induction more generalizing lead with
  | nil => exact Nat.zero_le _
  | cons branch more ih =>
    have later := @ih (List.replicate breaks .newline ++ [.keyword .elifWord])
    simp only [branchTokens, inBraces, List.length_append, List.length_cons] at later ⊢
    omega

theorem items_params (params : List String) : ∀ name ∈ params,
    Items (consumeName .bracketed) .rightParen (fun name => [.ident name])
      (fun (x : Ident) name => x.name = name) name := by
  intro name _
  refine ⟨⟨nofun, nofun, nofun⟩, fun rest _ => ?_⟩
  have taken : (consumeName .bracketed >>= pure).Takes [.ident name] rest (·.name = name) :=
    consumeName_bind fun _ => takes_pure rfl
  rwa [bind_pure] at taken

theorem map_name {names : List Ident} {params : List String}
    (same : List.Forall₂ (fun x name => x.name = name) names params) :
    names.map (·.name) = params := by
  induction same with
  | nil => rfl
  | cons here _ ih => rw [List.map_cons, here, ih]

section

variable (inside : Reads st breaks stmt n)

include inside

theorem takes_blockRest {body : Block} (writable : ∀ s ∈ body, s.Writable st.decimal)
    (room : (lines st breaks body).length < n) (enough : body.length < fuel) :
    (blockRest stmt fuel).Takes (.newline :: (lines st breaks body ++ [.punct .rightBrace])) rest
      (eraseAll · = eraseAll body) := by
  induction body generalizing fuel with
  | nil =>
    cases fuel with
    | zero => cases enough
    | succ fuel =>
      refine skipNewline_bind (peek_bind_cons fun place => ?_) nofun
      exact next_bind fun _ => takes_pure rfl
  | cons s body ih =>
    cases fuel with
    | zero => cases enough
    | succ fuel =>
      have ⟨here, later⟩ := List.forall_mem_cons.1 writable
      have starts : startsStmt (first (s.tokens st breaks)) = true := startsStmt_tokens here
      rw [lines, List.length_append, List.length_cons] at room
      rw [lines, List.append_assoc, List.cons_append]
      have follows : Follows (.newline :: (lines st breaks body ++ [.punct .rightBrace]) ++ rest) := by
        rw [List.cons_append, List.append_assoc]
        exact ⟨_, rfl, noBranch_lines later ⟨nofun, nofun, nofun⟩⟩
      have ne : ∀ l, startsStmt l = false → first (s.tokens st breaks) ≠ l := by
        rintro l closed rfl
        rw [closed] at starts
        cases starts
      refine skipNewline_bind (peek_bind nofun fun place => ?_) ?_
      · simp only [List.append_assoc, first_of_startsStmt starts]
        rw [if_neg (ne _ rfl), if_neg (ne _ rfl)]
        apply (inside here (by omega) follows).bind
        intro s' same
        apply (ih later (by omega) (Nat.lt_of_succ_lt_succ enough)).bind_last
        intro body' sames
        refine takes_pure ?_
        rw [eraseAll, eraseAll, same, sames]
      · rw [List.append_assoc, first_of_startsStmt starts]
        exact ne _ rfl

/-- A block in braces. -/
theorem takes_block {body : Block} (writable : ∀ s ∈ body, s.Writable st.decimal)
    (room : (inBraces (lines st breaks body)).length ≤ n)
    (enough : (inBraces (lines st breaks body)).length < fuel) :
    (block stmt fuel).Takes (inBraces (lines st breaks body)) rest (eraseAll · = eraseAll body) := by
  have count : body.length ≤ (lines st breaks body).length := length_le_lines body
  simp only [inBraces, List.length_cons, List.length_append, List.length_nil] at room enough
  refine consumeMark_bind fun _ => ?_
  exact takes_blockRest inside writable (by omega) (by omega)

/-! ## Declarations -/

theorem takes_function {decl : FunctionDecl} (writable : ∀ s ∈ decl.body, s.Writable st.decimal)
    (room : (decl.tokens st breaks).length ≤ n) (enough : (decl.tokens st breaks).length < fuel) :
    (functionDecl stmt fuel).Takes (decl.tokens st breaks) rest (·.erase = decl.erase) := by
  rcases decl with ⟨p, name, params, body⟩
  have writable : ∀ s ∈ body, s.Writable st.decimal := writable
  simp only [FunctionDecl.tokens, paramTokens, List.length_cons, List.length_append] at room enough
  simp only [FunctionDecl.tokens, paramTokens, List.cons_append, List.append_assoc, List.nil_append]
  refine consume_bind fun _ => consumeName_bind fun _ => ?_
  refine enclosed_bind (by decide) (items_params params) (by omega) fun _ names same => ?_
  apply (takes_block inside writable (by omega) (by omega)).bind_last
  intro body' sameBody
  refine takes_pure ?_
  rw [FunctionDecl.erase, FunctionDecl.erase, sameBody, map_name same]

theorem takes_methods {structName : String} {bound : Nat} {methods : List FunctionDecl}
    (writable : ∀ method ∈ methods, ∀ s ∈ method.body, s.Writable st.decimal)
    (room : (methodLines st breaks methods).length ≤ n)
    (bounded : (methodLines st breaks methods).length < bound) (enough : methods.length < fuel) :
    (members stmt structName bound fuel).Takes
      (.newline :: (methodLines st breaks methods ++ [.punct .rightBrace])) rest
      fun result => result.1 = [] ∧ eraseMethods result.2 = eraseMethods methods := by
  induction methods generalizing fuel with
  | nil =>
    cases fuel with
    | zero => cases enough
    | succ fuel =>
      refine skipNewline_bind (peek_bind_cons fun place => ?_) nofun
      exact next_bind fun _ => takes_pure ⟨rfl, rfl⟩
  | cons method methods ih =>
    cases fuel with
    | zero => cases enough
    | succ fuel =>
      have ⟨here, later⟩ := List.forall_mem_cons.1 writable
      simp only [methodLines, List.length_append, List.length_cons] at room bounded
      rw [methodLines, List.append_assoc, List.cons_append]
      have word : first (method.tokens st breaks) = .keyword .defWord := by
        rcases method with ⟨p, name, params, body⟩
        rfl
      have starts : ∀ ls, first (method.tokens st breaks ++ ls) = .keyword .defWord := by
        intro ls
        rw [first_append (by rw [word]; nofun), word]
      refine skipNewline_bind (peek_bind nofun fun place => ?goesOn) ?noNewline
      case noNewline =>
        rw [List.append_assoc, starts]
        nofun
      simp only [List.append_assoc, starts]
      apply (takes_function inside here (by omega) (by omega)).bind
      intro method' same
      apply (ih later (by omega) (by omega) (Nat.lt_of_succ_lt_succ enough)).bind_last
      rintro ⟨fields, methods'⟩ ⟨noFields, sames⟩
      refine takes_pure ⟨noFields, ?_⟩
      rw [eraseMethods, eraseMethods, same, sames]

theorem takes_members {structName : String} {bound : Nat} {fields : List String}
    {methods : List FunctionDecl}
    (writable : ∀ method ∈ methods, ∀ s ∈ method.body, s.Writable st.decimal)
    (room : (methodLines st breaks methods).length ≤ n)
    (bounded : (methodLines st breaks methods).length < bound)
    (enough : fields.length + methods.length < fuel) :
    (members stmt structName bound fuel).Takes
      (.newline :: (fieldLines fields ++ methodLines st breaks methods ++ [.punct .rightBrace])) rest
      fun result => result.1 = fields ∧ eraseMethods result.2 = eraseMethods methods := by
  induction fields generalizing fuel with
  | nil => exact takes_methods inside writable room bounded (by simpa using enough)
  | cons field fields ih =>
    cases fuel with
    | zero => cases enough
    | succ fuel =>
      refine skipNewline_bind (peek_bind_cons fun place => next_bind fun _ => ?_) nofun
      apply (ih (by rw [List.length_cons] at enough; omega)).bind_last
      rintro ⟨fields', methods'⟩ ⟨rfl, sames⟩
      exact takes_pure ⟨rfl, sames⟩

theorem takes_struct {p : Position} {name : String} {fields : List String}
    {methods : List FunctionDecl}
    (writable : ∀ method ∈ methods, ∀ s ∈ method.body, s.Writable st.decimal)
    (room : ((structDecl p name fields methods).tokens st breaks).length ≤ n)
    (enough : ((structDecl p name fields methods).tokens st breaks).length < fuel) :
    (structDeclaration stmt fuel).Takes ((structDecl p name fields methods).tokens st breaks) rest
      (Same · (.structDecl p name fields methods)) := by
  have countFields := length_le_fieldLines fields
  have countMethods : methods.length ≤ (methodLines st breaks methods).length :=
    length_le_methodLines methods
  simp only [tokens, inBraces, List.length_cons, List.length_append] at room enough
  refine consume_bind fun _ => consumeName_bind fun _ => consumeMark_bind fun _ => ?_
  apply (takes_members inside writable (by omega) (by omega) (by omega)).bind_last
  rintro ⟨fields', methods'⟩ ⟨rfl, sames⟩
  refine takes_pure ?_
  rw [Same, erase, erase, sames]

end

/-! ## Conditionals and loops -/

/-- Where no further branch follows, the newlines looked past are left. -/
theorem branches_stop {bound : Nat} (follows : Follows rest) :
    (branches stmt bound (fuel + 1)).Takes [] rest (· = ([], none)) := by
  obtain ⟨tail, rfl, line, noElif, noElse⟩ := follows
  refine takes_restored fun ts spells => ?_
  have skips : skipNewlines.Takes [.newline] tail fun _ => True := by
    have skipped : (skipNewlines >>= pure).Takes [.newline] tail fun _ => True :=
      skipNewline_bind (takes_pure trivial) line
    rwa [bind_pure] at skipped
  obtain ⟨_, ts', -, spells', run⟩ := skips.run spells
  have plain : Mode.plain.multiline = true → first tail ≠ .newline := fun _ => line
  obtain ⟨place, ts'', -, run'⟩ := run_peek spells' plain
  rw [run_bind_of_ok run, run_bind_of_ok run']
  simp only
  rfl

theorem name?_bind {β : Type} {name : String} {f : Option Ident → Parser β} {next : Parser β → Prop}
    {ls : List Lexeme} (goesOn : ∀ place, (f (some ⟨place, name⟩)).Leads ls rest next) :
    (name? >>= f).Leads (.ident name :: ls) rest next := by
  rw [name?, bind_assoc]
  refine peek_bind_cons fun place => ?_
  simp only [bind_assoc, pure_bind]
  exact next_bind fun _ => goesOn place

theorem takes_loopNames {counter element : String} :
    loopNames?.Takes [.ident counter, .punct .comma, .ident element, .keyword .inWord] rest
      fun names => ∃ p q, names = some (⟨p, counter⟩, ⟨q, element⟩) := by
  have names : loopNames?.attempt.Takes
      [.ident counter, .punct .comma, .ident element, .keyword .inWord] rest
      fun names => ∃ p q, names = some (⟨p, counter⟩, ⟨q, element⟩) := by
    refine name?_bind fun p => atMark_bind rfl (next_bind fun _ => name?_bind fun q => ?_)
    exact atLexeme_bind rfl (next_bind fun _ => takes_pure ⟨p, q, rfl⟩)
  refine get_bind fun _ => names.bind_last ?_
  rintro found ⟨p, q, rfl⟩
  exact takes_pure ⟨p, q, rfl⟩

theorem loopNames_bind {β : Type} {counter element : String} {f : Option (Ident × Ident) → Parser β}
    {next : Parser β → Prop} {ls : List Lexeme}
    (goesOn : ∀ p q, (f (some (⟨p, counter⟩, ⟨q, element⟩))).Leads ls rest next) :
    (loopNames? >>= f).Leads
      (.ident counter :: .punct .comma :: .ident element :: .keyword .inWord :: ls) rest next := by
  apply Takes.bind takes_loopNames
  rintro found ⟨p, q, rfl⟩
  exact goesOn p q

/-- A header that does not start with the names of loop variables. -/
theorem loopNames_none (other : (∀ name, first rest ≠ .ident name) ∨
      ∃ name tail, rest = .ident name :: tail ∧ first tail ≠ .punct .comma) :
    loopNames?.Takes [] rest (· = none) := by
  refine takes_restored fun ts spells => ?_
  have looks : ∃ ts', loopNames?.attempt.run ts = .ok (none, ts') := by
    rcases other with other | ⟨name, tail, rfl, noComma⟩
    · have nothing : loopNames?.attempt.Takes [] rest (· = none) := by
        rw [loopNames?.attempt, name?, bind_assoc]
        refine peek_bind nofun fun place => ?_
        simp only [List.nil_append]
        exact takes_pure rfl
      obtain ⟨_, ts', rfl, -, run⟩ := nothing.run spells
      exact ⟨ts', run⟩
    · have nothing : loopNames?.attempt.Takes [.ident name] tail (· = none) := by
        refine name?_bind fun p => ?_
        exact notAtMark_bind nofun noComma (takes_pure rfl)
      obtain ⟨_, ts', rfl, -, run⟩ := nothing.run spells
      exact ⟨ts', run⟩
  obtain ⟨ts', run⟩ := looks
  rw [run_bind_of_ok run]
  rfl

theorem noLoopNames_bind (full : st.Full) {β : Type} {e : Expr} (writable : e.Writable st.decimal)
    {f : Option (Ident × Ident) → Parser β} {next : Parser β → Prop} {ls : List Lexeme}
    (brace : first (ls ++ rest) = .punct .leftBrace)
    (goesOn : (f none).Leads (e.tokens st 0 ++ ls) rest next) :
    (loopNames? >>= f).Leads (e.tokens st 0 ++ ls) rest next := by
  have nothing : loopNames?.Takes [] (e.tokens st 0 ++ ls ++ rest) (· = none) := by
    rw [List.append_assoc]
    apply loopNames_none
    rcases Expr.tokens_cases_of_full full e with parens | ⟨alone, bare⟩
    · rw [parens]
      exact .inl nofun
    · rw [bare]
      cases writable with
      | ident => exact .inr ⟨_, ls ++ rest, rfl, by rw [brace]; nofun⟩
      | @bool _ b => cases b <;> exact .inl nofun
      | int | float | str | list | dict => exact .inl nofun
      | _ => cases alone
  apply nothing.bind
  rintro found rfl
  exact goesOn

section

variable (inside : Reads st breaks stmt n)

include inside

/-- A header and the block behind it. -/
theorem headed_bind (full : st.Full) {β : Type} {e : Expr} {body : Block}
    {f : Expr → Block → Parser β} {next : Parser β → Prop} {ls : List Lexeme}
    (writable : e.Writable st.decimal) (bodies : ∀ s ∈ body, s.Writable st.decimal)
    (room : (inBraces (lines st breaks body)).length ≤ n)
    (enough : (e.tokens st 0).length + (inBraces (lines st breaks body)).length < fuel)
    (goesOn : ∀ e' body', e'.Same e → eraseAll body' = eraseAll body → (f e' body').Leads ls rest next) :
    (heading fuel >>= fun e => block stmt fuel >>= f e).Leads
      (e.tokens st 0 ++ (inBraces (lines st breaks body) ++ ls)) rest next := by
  have header : (heading fuel).Takes (e.tokens st 0) (inBraces (lines st breaks body) ++ ls ++ rest)
      (Expr.Same · e) := Expr.takes_heading full writable (by omega)
  apply header.bind
  intro e' same
  apply (takes_block inside bodies room (by omega)).bind
  intro body' sameBody
  exact goesOn e' body' same sameBody

/-- The further branches of a conditional.  The induction is on the branches. -/
theorem takes_branches (full : st.Full) {bound : Nat} {more : List (Expr × List Stmt)}
    {otherwise : Option (List Stmt)}
    (conditions : ∀ branch ∈ more, branch.1.Writable st.decimal)
    (bodies : ∀ branch ∈ more, ∀ s ∈ branch.2, s.Writable st.decimal)
    (other : ∀ body ∈ otherwise, ∀ s ∈ body, s.Writable st.decimal) {ls : List Lexeme}
    (tokens : ls =
      branchTokens st breaks (List.replicate breaks .newline ++ [.keyword .elifWord]) more ++
        elseTokens st breaks otherwise)
    (room : ls.length ≤ n) (bounded : ls.length < bound) (enough : more.length < fuel)
    (follows : Follows rest) :
    (branches stmt bound fuel).Takes ls rest
      fun result => eraseBranches result.1 = eraseBranches more ∧
        eraseOtherwise result.2 = eraseOtherwise otherwise := by
  subst tokens
  induction more generalizing fuel with
  | nil =>
    cases fuel with
    | zero => cases enough
    | succ fuel =>
      cases otherwise with
      | none => exact (branches_stop follows).mono fun result answer => answer ▸ ⟨rfl, rfl⟩
      | some body =>
        simp only [branchTokens, elseTokens, List.nil_append, List.length_append, List.length_cons]
          at room bounded ⊢
        refine get_bind fun _ => skipNewlines_bind (peek_bind_cons fun place => ?_) nofun
        refine next_bind fun _ => ?_
        apply (takes_block inside (other body rfl) (by omega) (by omega)).bind_last
        intro body' same
        exact takes_pure ⟨rfl, by rw [eraseOtherwise, eraseOtherwise, same]⟩
  | cons branch more ih =>
    cases fuel with
    | zero => cases enough
    | succ fuel =>
      rcases branch with ⟨condition, body⟩
      simp only [List.forall_mem_cons] at conditions bodies
      simp only [branchTokens, List.append_assoc, List.length_append, List.length_cons,
        List.cons_append, List.nil_append] at room bounded ih ⊢
      refine get_bind fun _ => skipNewlines_bind (peek_bind_cons fun place => ?_) nofun
      refine next_bind fun _ => ?_
      refine headed_bind inside full conditions.1 bodies.1 ?_ ?_ fun c b sameCondition sameBody => ?_
      · omega
      · omega
      · apply (ih conditions.2 bodies.2 (Nat.lt_of_succ_lt_succ enough) (by omega) (by omega)).bind_last
        rintro ⟨more', otherwise'⟩ ⟨sameMore, sameOtherwise⟩
        refine takes_pure ⟨?_, sameOtherwise⟩
        rw [eraseBranches, eraseBranches, sameCondition, sameBody, sameMore]

theorem takes_conditional (full : st.Full) {p : Position} {all : List (Expr × List Stmt)}
    {otherwise : Option (List Stmt)} (some : all ≠ [])
    (conditions : ∀ branch ∈ all, branch.1.Writable st.decimal)
    (bodies : ∀ branch ∈ all, ∀ s ∈ branch.2, s.Writable st.decimal)
    (other : ∀ body ∈ otherwise, ∀ s ∈ body, s.Writable st.decimal)
    (room : ((conditional p all otherwise).tokens st breaks).length ≤ n)
    (enough : ((conditional p all otherwise).tokens st breaks).length < fuel) (follows : Follows rest) :
    (ifStatement stmt fuel).Takes ((conditional p all otherwise).tokens st breaks) rest
      (Same · (.conditional p all otherwise)) := by
  cases all with
  | nil => exact absurd rfl some
  | cons branch more =>
    rcases branch with ⟨condition, body⟩
    simp only [List.forall_mem_cons] at conditions bodies
    have count : more.length ≤ (branchTokens st breaks
        (List.replicate breaks .newline ++ [.keyword .elifWord]) more).length :=
      length_le_branchTokens more
    simp only [tokens, branchTokens, List.append_assoc, List.length_append, List.length_cons,
      List.cons_append, List.nil_append] at room enough count ⊢
    refine consume_bind fun _ =>
      headed_bind inside full conditions.1 bodies.1 ?_ ?_ fun c b sameCondition sameBody => ?_
    · omega
    · omega
    · apply (takes_branches inside full conditions.2 bodies.2 other rfl ?_ ?_ ?_ follows).bind_last
      · rintro ⟨more', otherwise'⟩ ⟨sameMore, sameOtherwise⟩
        refine takes_pure ?_
        rw [Same, erase, erase, eraseBranches, eraseBranches, sameCondition, sameBody, sameMore,
          sameOtherwise]
      · rw [List.length_append]
        omega
      · rw [List.length_append]
        omega
      · omega

theorem takes_loop (full : st.Full) {p : Position} {condition : Expr} {body : Block}
    (writable : condition.Writable st.decimal) (bodies : ∀ s ∈ body, s.Writable st.decimal)
    (room : ((loop p condition body).tokens st breaks).length ≤ n)
    (enough : ((loop p condition body).tokens st breaks).length < fuel) :
    (forStatement stmt fuel).Takes ((loop p condition body).tokens st breaks) rest
      (Same · (.loop p condition body)) := by
  simp only [tokens, List.length_cons, List.length_append] at room enough ⊢
  rw [← List.append_nil (inBraces _)]
  refine consume_bind fun _ => noLoopNames_bind full writable rfl ?_
  refine headed_bind inside full writable bodies ?_ ?_ fun e' body' same sameBody => takes_pure ?_
  · omega
  · omega
  · rw [Same, erase, erase, same, sameBody]

theorem takes_forIn (full : st.Full) {p : Position} {target : Expr} {counter element : Ident}
    {body : Block} (writable : target.Writable st.decimal)
    (bodies : ∀ s ∈ body, s.Writable st.decimal)
    (room : ((forIn p target counter element body).tokens st breaks).length ≤ n)
    (enough : ((forIn p target counter element body).tokens st breaks).length < fuel) :
    (forStatement stmt fuel).Takes ((forIn p target counter element body).tokens st breaks) rest
      (Same · (.forIn p target counter element body)) := by
  simp only [tokens, List.length_cons, List.length_append] at room enough ⊢
  rw [← List.append_nil (inBraces _)]
  refine consume_bind fun _ => loopNames_bind fun _ _ => ?_
  refine headed_bind inside full writable bodies ?_ ?_ fun e' body' same sameBody => takes_pure ?_
  · omega
  · omega
  · rw [Same, erase, erase, same, sameBody]

end

theorem takes_return {p : Position} {value : Option Expr}
    (writable : ∀ e ∈ value, e.Writable st.decimal)
    (enough : ((returnValue p value).tokens st breaks).length < fuel)
    (ends : endsAt (first rest) = true) :
    (returnStatement fuel).Takes ((returnValue p value).tokens st breaks) rest
      (Same · (.returnValue p value)) := by
  cases value with
  | none =>
    refine consume_bind fun _ => peek_bind nofun fun _ => ?_
    simp only [List.nil_append, ends, if_true]
    exact takes_pure rfl
  | some e =>
    have starts := (Expr.starts_tokens (writable e rfl) 0).append rest
    rw [tokens, List.length_cons] at enough
    rw [tokens]
    refine consume_bind fun _ => peek_bind nofun fun _ => ?_
    simp only [endsAt_of_starts starts, Bool.false_eq_true, if_false]
    apply (Expr.reads_parse fuel rfl (writable e rfl) (Expr.fits_tokens ..) (by omega)
      (stops_of_endsAt ends)).bind_last
    intro e' same
    refine takes_pure ?_
    rw [Same, erase, erase, Expr.eraseBound, Expr.eraseBound, same]

theorem takes_importPath {target : String} :
    (importPath fuel).Takes [.string target] rest (· = target) :=
  peek_bind_cons fun _ => next_bind fun _ => takes_pure rfl

/-! ## Statements -/

/-- Statements are read back.  The induction is on the nesting of blocks. -/
theorem reads_parse (full : st.Full) (fuel : Nat) : Reads st breaks (parse fuel) fuel := by
  induction fuel with
  | zero =>
    intro s rest _ room
    cases room
  | succ fuel ih =>
    intro s rest writable enough follows
    have room := Nat.le_of_lt_succ enough
    have ends : endsAt (first rest) = true := by
      obtain ⟨tail, rfl, -⟩ := follows
      rfl
    cases writable with
    | comment => exact peek_bind_cons fun _ => next_bind fun _ => takes_pure rfl
    | importModule =>
      refine peek_bind_cons fun _ => next_bind fun _ => takes_importPath.bind_last ?_
      rintro target rfl
      exact takes_pure rfl
    | expr writable =>
      exact takes_simple ((Expr.starts_tokens writable 0).append rest) (takes_expr writable enough ends)
    | assign someLeft someRight left right =>
      refine takes_simple ?_ (takes_assign someLeft someRight left right enough ends)
      rw [tokens, List.append_assoc]
      exact starts_exprs someLeft left _
    | @conditional _ branches _ some conditions bodies other =>
      have takes := takes_conditional ih full some conditions bodies other room enough follows
      cases branches with
      | nil => exact absurd rfl some
      | cons => exact peek_bind_cons fun _ => takes
    | forIn target _ _ bodies =>
      exact peek_bind_cons fun _ => takes_forIn ih full target bodies room enough
    | loop condition bodies =>
      exact peek_bind_cons fun _ => takes_loop ih full condition bodies room enough
    | @function decl _ bodies =>
      rcases decl with ⟨p, name, params, body⟩
      refine peek_bind_cons fun _ => (takes_function ih bodies room enough).bind_last ?_
      intro decl' same
      exact takes_pure (congrArg Stmt.function same)
    | structDecl _ _ _ bodies => exact peek_bind_cons fun _ => takes_struct ih bodies room enough
    | @returnValue _ value writable =>
      have takes := takes_return writable enough ends
      cases value with
      | none => exact peek_bind_cons fun _ => takes
      | some => exact peek_bind_cons fun _ => takes
    | breakLoop => exact peek_bind_cons fun _ => next_bind fun _ => takes_pure rfl
    | continueLoop => exact peek_bind_cons fun _ => next_bind fun _ => takes_pure rfl

end Shiba.Stmt

namespace Shiba.Program

open Shiba.Parser
open Lexeme (first)

variable {st : Style} {breaks : Nat}

/-- A statement at the top level, behind the newline of the one before it. -/
theorem takes_statement? {bound : Nat} {ls rest : List Lexeme} {P : Stmt → Prop}
    (takes : (Stmt.parse bound).Takes ls rest P) (starts : Stmt.startsStmt (first ls) = true)
    (newlines : Nat) :
    (statement? bound).Takes (List.replicate newlines .newline ++ ls) rest
      fun result => ∃ s, result = .ok s ∧ P s := by
  have ne : ∀ l, Stmt.startsStmt l = false → first (ls ++ rest) ≠ l := by
    rintro l closed rfl
    rw [Stmt.first_of_startsStmt starts, starts] at closed
    cases closed
  refine skipNewlines_bind (peek_bind nofun fun _ => ?_) (ne _ rfl)
  rw [if_neg (ne _ rfl)]
  apply takes.bind_last
  intro s holds
  exact takes_pure ⟨s, rfl, holds⟩

theorem takes_end {bound : Nat} (newlines : Nat) :
    (statement? bound).Takes (List.replicate newlines .newline) []
      fun result => ∃ p, result = .error p := by
  rw [← List.append_nil (List.replicate _ _)]
  exact skipNewlines_bind (peek_bind nofun fun p => takes_pure ⟨p, rfl⟩) nofun

/-- All statements of a sequence of tokens.  The induction is on the statements. -/
theorem ofTokensWith_lines (full : st.Full) {bound fuel : Nat} {block : Block} {ts : Tokens}
    (writable : ∀ s ∈ block, s.Writable st.decimal)
    (room : (Stmt.lines st breaks block).length < bound) (enough : block.length < fuel)
    (newlines : Nat)
    (spells : ts.Spells (List.replicate newlines .newline ++ Stmt.lines st breaks block)) :
    ∃ statements place, ofTokensWith bound fuel ts = ⟨statements, .complete place⟩ ∧
      Stmt.eraseAll statements = Stmt.eraseAll block := by
  induction block generalizing fuel newlines ts with
  | nil =>
    cases fuel with
    | zero => cases enough
    | succ fuel =>
      have takes : (statement? bound).Takes _ _ _ := takes_end newlines
      obtain ⟨_, ts', ⟨place, rfl⟩, -, run⟩ := takes.run spells
      refine ⟨[], place, ?_, rfl⟩
      rw [ofTokensWith, run]
  | cons s block ih =>
    cases fuel with
    | zero => cases enough
    | succ fuel =>
      have ⟨here, later⟩ := List.forall_mem_cons.1 writable
      simp only [Stmt.lines, List.length_append, List.length_cons] at room spells
      rw [← List.append_assoc] at spells
      have follows : Stmt.Follows (.newline :: Stmt.lines st breaks block) := by
        rw [← List.append_nil (Stmt.lines st breaks block)]
        exact ⟨_, rfl, Stmt.noBranch_lines later ⟨nofun, nofun, nofun⟩⟩
      have takes : (Stmt.parse bound).Takes (s.tokens st breaks) _ _ :=
        Stmt.reads_parse full bound here (by omega) follows
      obtain ⟨_, ts', ⟨s', rfl, same⟩, spells', run⟩ :=
        (takes_statement? takes (Stmt.startsStmt_tokens here) newlines).run spells
      obtain ⟨statements, place, rest, sames⟩ :=
        ih later (by omega) (Nat.lt_of_succ_lt_succ enough) 1 spells'
      refine ⟨s' :: statements, place, ?_, ?_⟩
      · rw [ofTokensWith, run]
        simp only [rest, cons]
      · rw [Stmt.eraseAll, Stmt.eraseAll, same, sames]

theorem parse_of_ofText {text : String} {statements : Block} {place : Position}
    (read : ofText text = ⟨statements, .complete place⟩) : parse text = .ok statements := by
  unfold parse
  rw [read]

/-- Parsing the text of a sequence of statements gives these statements back. -/
theorem parse_block_text {st : Style} (full : st.Full) (breaks : Nat) {block : Block}
    (writable : ∀ s ∈ block, s.Writable st.decimal) :
    ∃ block', parse (block.text st breaks) = .ok block' ∧
      Stmt.eraseAll block' = Stmt.eraseAll block := by
  have spells : (Tokens.ofText (block.text st breaks)).Spells (Stmt.lines st breaks block) :=
    Stmt.spells_text writable
  have size := congrArg List.length spells.lexemes
  rw [List.length_map] at size
  have count : block.length ≤ (Stmt.lines st breaks block).length := Stmt.length_le_lines block
  rw [← size] at count
  obtain ⟨statements, place, all, same⟩ := ofTokensWith_lines full writable
    (Nat.lt_succ_of_le (Nat.le_of_eq size.symm)) (Nat.lt_succ_of_le count) 0 spells
  exact ⟨statements, parse_of_ofText all, same⟩

/-- A struct with a method, and a function with a loop, a conditional with three branches in it, one
condition of which is a struct initialiser. -/
def sample : Block :=
  [.comment .start " totals",
   .importModule .start "seq",
   .structDecl .start "P" ["x"] [.mk .start "twice" []
     [.assign .start (.compute .add) [.ident .start "x"] [.ident .start "x"],
      .returnValue .start none]],
   .function (.mk .start "f" ["a", "b"]
     [.forIn .start (.ident .start "a") ⟨.start, "i"⟩ ⟨.start, "e"⟩
       [.conditional .start
         [(.binary .start .less (.ident .start "e") (.ident .start "i"), [.continueLoop .start]),
          (.structInit .start "P" .start [], [.loop .start (.ident .start "b") [.breakLoop .start]])]
         (some [.assign .start .unpack [.ident .start "a", .ident .start "b"] [.ident .start "e"]])],
      .returnValue .start (some (.select .start (.ident .start "a") "x"))]),
   .expr (.call .start (.ident .start "f") [.literal .start (.str "#"), .list .start []])]

theorem writable_sample (decimal : Float → String) : ∀ s ∈ sample, s.Writable decimal := by
  simp only [sample, List.forall_mem_cons]
  refine ⟨.comment (by decide), .importModule, ?struct, ?function, ?call, nofun⟩
  case struct =>
    refine .structDecl (by decide) (by decide) (by decide) (List.forall_mem_singleton.2 ?_)
    simp only [FunctionDecl.body, List.forall_mem_cons]
    refine ⟨.assign (by simp) (by simp) ?_ ?_, .returnValue nofun, nofun⟩
    · exact List.forall_mem_singleton.2 (.ident (by decide))
    · exact List.forall_mem_singleton.2 (.ident (by decide))
  case function =>
    refine .function (by decide) ?_
    simp only [FunctionDecl.body, List.forall_mem_cons]
    refine ⟨.forIn (.ident (by decide)) (by decide) (by decide) (List.forall_mem_singleton.2 ?_), ?_,
      nofun⟩
    · refine .conditional (by simp) ?_ ?_ ?_
      · simp only [List.forall_mem_cons]
        exact ⟨.binary (.ident (by decide)) (.ident (by decide)),
          .structInit (by decide) nofun nofun, nofun⟩
      · simp only [List.forall_mem_cons]
        refine ⟨⟨.continueLoop, nofun⟩, ⟨.loop (.ident (by decide)) ?_, nofun⟩, nofun⟩
        exact List.forall_mem_singleton.2 .breakLoop
      · rintro body ⟨⟩
        refine List.forall_mem_singleton.2 (.assign (by simp) (by simp) ?_ ?_)
        · simp only [List.forall_mem_cons]
          exact ⟨.ident (by decide), .ident (by decide), nofun⟩
        · exact List.forall_mem_singleton.2 (.ident (by decide))
    · refine .returnValue ?_
      rintro e ⟨⟩
      exact .select (.ident (by decide)) (by decide)
  case call =>
    refine .expr (.call (.ident (by decide)) ?_)
    simp only [List.forall_mem_cons]
    exact ⟨.str, .list nofun, nofun⟩

theorem parse_block_text_sample :
    ∃ block', parse ("# totals\n " ++ " \n ".intercalate [
        "import \"seq\"",
        "struct P \x7b", "x",
        "def twice ( ) \x7b", "x += x", "return", "\x7d", "\x7d",
        "def f ( a , b ) \x7b", "for i , e in a \x7b",
        "if ( e < i ) \x7b", "continue", "\x7d",
        "elif ( P \x7b \x7d ) \x7b", "for b \x7b", "break", "\x7d", "\x7d",
        "else \x7b", "a , b := e", "\x7d", "\x7d",
        "return ( a . x )", "\x7d",
        "( f ( \"#\" , [ ] ) ) \n"]) = .ok block' ∧
      Stmt.eraseAll block' = sample := by
  obtain ⟨block', parsed, same⟩ :=
    parse_block_text (Style.isFull_full fun _ => "") 1 (writable_sample _)
  refine ⟨block', ?_, same⟩
  rw [← parsed]
  refine congrArg parse ?_
  decide +kernel

/-- A text that spells an expression is a program of one statement. -/
theorem parse_expr {text : String} {e : Expr} (writable : e.Writable st.decimal)
    (spells : (Tokens.ofText text).Spells (e.tokens st 0)) :
    ∃ e', parse text = .ok [.expr e'] ∧ e'.Same e := by
  have size := congrArg List.length spells.lexemes
  rw [List.length_map] at size
  have starts := Expr.starts_tokens writable 0
  have some := List.length_pos_iff.2 (ne_nil_of_first (starts.ne rfl rfl))
  obtain ⟨k, more⟩ : ∃ k, (Tokens.ofText text).list.length = k + 1 :=
    ⟨_, (Nat.sub_add_cancel (size ▸ some)).symm⟩
  have simple : (Stmt.parse (k + 2)).Takes (e.tokens st 0) [] (Stmt.Same · (.expr e)) :=
    Stmt.takes_simple (starts.append []) (Stmt.takes_expr writable (by omega) rfl)
  have spells' : (Tokens.ofText text).Spells (List.replicate 0 .newline ++ e.tokens st 0 ++ []) := by
    rwa [List.append_nil]
  obtain ⟨_, ts', ⟨s', rfl, same⟩, left, run⟩ :=
    (takes_statement? simple (Stmt.startsStmt_of_starts starts) 0).run spells'
  have ends : (statement? (k + 2)).Takes _ _ _ := takes_end 0
  obtain ⟨_, _, ⟨place, rfl⟩, -, run'⟩ := ends.run left
  have all : ofText text = ⟨[s'], .complete place⟩ := by
    rw [ofText, ofTokens, more, ofTokensWith, run]
    simp only [ofTokensWith, run', cons]
  cases s' with
  | expr e' => exact ⟨e', parse_of_ofText all, Stmt.expr.inj same⟩
  | _ => cases same

end Shiba.Program

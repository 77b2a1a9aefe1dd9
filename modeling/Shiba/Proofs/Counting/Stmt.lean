import Shiba.Proofs.Counting.Expr

/-!
# Counting brackets in statements

The parser of statements that counts brackets does what the one does that is told the mode, and all its
calls for statements take tokens away and leave nothing open (`Mirrors.statement`).
-/

namespace Shiba.Counting

open Shiba.Stmt (assignOp? endsAt)

/-- What stands behind newlines: the end of the input, or what `p` makes of it. -/
def found? (p : Parser Stmt) : Parser (Except Position Stmt) := do
  Parser.skipNewlines
  let t ← Parser.peek .plain
  if t.lexeme = .eof then return .error t.position
  else return .ok (← p)

theorem statement?_eq (bound : Nat) : Program.statement? bound = found? (Stmt.parse bound) := rfl

/-- A call that answers a statement takes tokens away. -/
def TakesStmt (ts : Tokens) : Except Position Stmt → Tokens → Prop :=
  fun found rest => ∀ s, found = .ok s → rest.list.length < ts.list.length

namespace Mirrors

variable {α β : Type} {flags : Flags} {ts rest : Tokens} {t : Token} {q : CountingParser α} {p : Parser α}
  {post : α → Tokens → Prop}

theorem congr {p' : Parser α} (same : p.run ts = p'.run ts) (mirrors : Mirrors flags ts q p post) :
    Mirrors flags ts q p' post := by
  unfold Mirrors at mirrors ⊢
  rw [← same]
  exact mirrors

/-- A token that is known to be at the front need not be looked at again. -/
theorem looked {g : Token → Parser α} (front : ts.front = .ok t) (mirrors : Mirrors flags ts q (g t) post) :
    Mirrors flags ts q (Parser.peek .plain >>= g) post := by
  refine mirrors.congr ?_
  have run : (Parser.peek .plain).run ts = .ok (t, ts) := by
    rw [Parser.peek_run, show ts.seen .plain = ts from rfl, front]
    rfl
  rw [StateT.run_bind, run]
  rfl

/-! ## Parts of statements -/

theorem heading (fuel : Nat) : Mirrors .plain ts (heading fuel) (Stmt.heading fuel) (Takes ts) :=
  .inHeader (expression Flags.mode_heading fuel ts)

theorem importParts (fuel : Nat) (ts : Tokens) :
    Mirrors .plain ts (importParts fuel) (Stmt.importPath.parts fuel) (Keeps ts) := by
  induction fuel generalizing ts with
  | zero => exact .exhausted
  | succ fuel ih =>
    refine .bind (.atLexeme rfl) fun found rest peeked => ?_
    obtain ⟨t, peeked, rfl⟩ := peeked
    have keeps := peeked.keeps
    split
    · rename_i slash
      refine .bind (.next rfl peeked (by simp [of_decide_eq_true slash])) fun _ rest₁ taken => ?_
      refine .bind (.consumeName rfl) fun name rest₂ taken₁ => ?_
      refine .bind (ih rest₂) fun more rest₃ kept => .pure ?_
      have := taken.2
      unfold Takes Keeps at *
      omega
    · exact .pure keeps

theorem importPath (fuel : Nat) : Mirrors .plain ts (importPath fuel) (Stmt.importPath fuel) (Keeps ts) := by
  refine .bind (.peek rfl) fun t rest peeked => ?_
  have keeps := peeked.keeps
  rcases t with ⟨l, place⟩
  cases l with
  | string value =>
    refine .bind (.next rfl peeked nofun) fun _ rest₁ taken => .pure ?_
    exact Nat.le_trans (Nat.le_of_lt taken.2) keeps
  | ident name =>
    refine .bind (.next rfl peeked nofun) fun _ rest₁ taken => ?_
    refine .bind (importParts fuel rest₁) fun more rest₂ kept => .pure ?_
    have := taken.2
    unfold Keeps at *
    omega
  | _ => exact .fail _ _

theorem exprList (bound fuel : Nat) (ts : Tokens) :
    Mirrors .plain ts (exprList bound fuel) (Stmt.exprList bound fuel) (Takes ts) := by
  induction fuel generalizing ts with
  | zero => exact .exhausted
  | succ fuel ih =>
    refine .bind (expression rfl bound ts) fun e rest taken => ?_
    refine .bind (.atLexeme rfl) fun found rest₁ peeked => ?_
    obtain ⟨t, peeked, rfl⟩ := peeked
    have fewer : rest₁.list.length < ts.list.length := Nat.lt_of_le_of_lt peeked.keeps taken
    split
    · rename_i comma
      refine .bind (.next rfl peeked (by simp [of_decide_eq_true comma])) fun _ rest₂ taken₁ => ?_
      refine .bind (.peek rfl) fun t₁ rest₃ peeked₁ => ?_
      have fewer₁ : rest₃.list.length < ts.list.length :=
        Nat.lt_trans (Nat.lt_of_le_of_lt peeked₁.keeps taken₁.2) fewer
      split
      · exact .pure fewer₁
      · exact .bind (ih rest₃) fun more rest₄ taken₂ => .pure (Nat.lt_trans taken₂ fewer₁)
    · exact .pure fewer

theorem simpleStatement (fuel : Nat) :
    Mirrors .plain ts (simpleStatement fuel) (Stmt.simpleStatement fuel) (Takes ts) := by
  refine .bind (exprList fuel fuel ts) fun left rest taken => ?_
  refine .bind (.peek rfl) fun t rest₁ peeked => ?_
  have fewer : rest₁.list.length < ts.list.length := Nat.lt_of_le_of_lt peeked.keeps taken
  cases operator : assignOp? t.lexeme with
  | some op =>
    have more : t.lexeme ≠ .eof := by
      intro eof
      rw [eof] at operator
      cases operator
    refine .bind (.next rfl peeked more) fun _ rest₂ taken₁ => ?_
    refine .bind (.peek rfl) fun behind rest₃ peeked₁ => ?_
    have fewer₁ : rest₃.list.length < ts.list.length :=
      Nat.lt_trans (Nat.lt_of_le_of_lt peeked₁.keeps taken₁.2) fewer
    split
    · exact .fail _ _
    · exact .bind (exprList fuel fuel rest₃) fun right rest₄ taken₂ => .pure (Nat.lt_trans taken₂ fewer₁)
  | none =>
    rcases left with - | ⟨e, - | ⟨second, more⟩⟩
    · exact .exhausted
    · exact .pure fewer
    · exact .throw _

theorem returnStatement (fuel : Nat) :
    Mirrors .plain ts (returnStatement fuel) (Stmt.returnStatement fuel) (Takes ts) := by
  refine .bind (.consume rfl nofun) fun t rest taken => ?_
  refine .bind (.peek rfl) fun behind rest₁ peeked => ?_
  have fewer : rest₁.list.length < ts.list.length := Nat.lt_of_le_of_lt peeked.keeps taken
  split
  · exact .pure fewer
  · exact .bind (expression rfl fuel rest₁) fun e rest₂ taken₁ => .pure (Nat.lt_trans taken₁ fewer)

theorem name? : Mirrors .plain ts name? Stmt.name? (Keeps ts) := by
  refine .bind (.peek rfl) fun t rest peeked => ?_
  have keeps := peeked.keeps
  rcases t with ⟨l, place⟩
  cases l with
  | ident name =>
    refine .bind (.next rfl peeked nofun) fun _ rest₁ taken => .pure ?_
    exact Nat.le_trans (Nat.le_of_lt taken.2) keeps
  | _ => exact .pure keeps

theorem tryLoopNames : Mirrors .plain ts tryLoopNames Stmt.loopNames?.attempt (Keeps ts) := by
  refine .bind name? fun counter rest kept => ?_
  cases counter with
  | none => exact .pure kept
  | some counter =>
    refine .bind (.atLexeme rfl) fun found rest₁ peeked => ?_
    obtain ⟨t, peeked, rfl⟩ := peeked
    have keeps : rest₁.list.length ≤ ts.list.length := Nat.le_trans peeked.keeps kept
    cases comma : decide (t.lexeme = .punct .comma) with
    | false => exact .pure keeps
    | true =>
      refine .bind (.next rfl peeked (by simp [of_decide_eq_true comma])) fun _ rest₂ taken => ?_
      refine .bind name? fun element rest₃ kept₁ => ?_
      have keeps₁ : rest₃.list.length ≤ ts.list.length :=
        Nat.le_trans (Nat.le_trans kept₁ (Nat.le_of_lt taken.2)) keeps
      cases element with
      | none => exact .pure keeps₁
      | some element =>
        refine .bind (.atLexeme rfl) fun found rest₄ peeked₁ => ?_
        obtain ⟨t₁, peeked₁, rfl⟩ := peeked₁
        have keeps₂ : rest₄.list.length ≤ ts.list.length := Nat.le_trans peeked₁.keeps keeps₁
        cases word : decide (t₁.lexeme = .keyword .inWord) with
        | false => exact .pure keeps₂
        | true =>
          refine .bind (.next rfl peeked₁ (by simp [of_decide_eq_true word])) fun _ rest₅ taken₁ => .pure ?_
          exact Nat.le_trans (Nat.le_of_lt taken₁.2) keeps₂

theorem loopNames? : Mirrors .plain ts loopNames? Stmt.loopNames? (Keeps ts) := by
  refine .bind .mark fun place rest marked => ?_
  obtain ⟨rfl, rfl⟩ := marked
  refine .bind tryLoopNames fun found rest₁ kept => ?_
  cases found with
  | some names => exact .pure kept
  | none =>
    refine .bind (.reset rest) fun _ rest₂ back => .pure ?_
    rw [back]
    exact Nat.le_refl _

/-! ## Calls -/

/-- A call does what is done behind newlines, and is sound when it takes tokens away. -/
theorem calling {body : Token → CountingParser Stmt} {p : Parser Stmt}
    (makes : ∀ t ts, ts.front = .ok t → Mirrors .plain ts (body t) p (Takes ts)) (ts : Tokens) :
    Mirrors .plain ts (calling body) (found? p) (TakesStmt ts) := by
  have noted : ∀ s rest, rest.list.length < ts.list.length → Mirrors .plain rest
      (do modify fun c => { c with calls := c.calls ++ [⟨ts, c.tokens, c.flags⟩] }; return .ok s)
      (pure (.ok s)) (TakesStmt ts) := by
    intro s rest fewer calls
    have sound : Call.Sound ⟨ts, rest, .plain⟩ := ⟨fewer, rfl⟩
    exact ⟨[⟨ts, rest, .plain⟩], List.forall_mem_singleton.2 sound,
      .inl ⟨.ok s, rest, rfl, rfl, fun _ _ => fewer⟩⟩
  have behind : Mirrors .plain ts
      (do skipNewlines
          let t ← peek
          if t.lexeme = .eof then return .error t.position
          else
            let s ← body t
            modify fun c => { c with calls := c.calls ++ [⟨ts, c.tokens, c.flags⟩] }
            return .ok s) (found? p) (TakesStmt ts) := by
    refine .behindNewlines rfl fun t rest₁ peeked keeps => ?_
    split
    · exact .pure nofun
    · exact .bind (makes t rest₁ peeked.front) fun s rest₂ taken => noted s rest₂ (Nat.lt_of_lt_of_le taken keeps)
  exact behind

/-- Behind newlines that have been skipped. -/
theorem found?_run (p : Parser Stmt) (front : ts.front = .ok t) (other : t.lexeme ≠ .newline)
    (more : t.lexeme ≠ .eof) :
    (found? p).run ts = (Except.ok <$> p : Parser (Except Position Stmt)).run ts := by
  have still : ts.seen .bracketed = ts := Tokens.seen_of_front front fun _ => other
  change ts.skipNewlines = ts at still
  have skip : Parser.skipNewlines.run ts = .ok ((), ts) := by
    simp [Parser.skipNewlines, still, front, MonadExcept.ofExcept]
    rfl
  have look : (Parser.peek .plain).run ts = .ok (t, ts) := by
    rw [Parser.peek_run, show ts.seen .plain = ts from rfl, front]
    rfl
  unfold found?
  rw [StateT.run_bind, skip]
  change (Parser.peek .plain >>= fun t => if t.lexeme = .eof then pure (Except.error t.position)
    else p >>= fun s => pure (Except.ok s) : Parser (Except Position Stmt)).run ts = _
  rw [StateT.run_bind, look]
  change (if t.lexeme = .eof then pure (Except.error t.position)
    else p >>= fun s => pure (Except.ok s) : Parser (Except Position Stmt)).run ts = _
  rw [if_neg more, ← bind_pure_comp]

/-- What follows when a statement has been called for. -/
def behindFound (g : Stmt → Parser β) : Except Position Stmt → Parser β
  | .ok s => g s
  | .error place => throw ⟨.grammatical .unterminatedBlock, place⟩

section Statement

variable {stmt : CountingParser (Except Position Stmt)} {p : Parser Stmt}
  (statement : ∀ ts, Mirrors .plain ts stmt (found? p) (TakesStmt ts))
include statement

/-- A call where a statement stands answers one. -/
theorem bind_statement {f : Except Position Stmt → CountingParser β} {g : Stmt → Parser β}
    {post : β → Tokens → Prop} (front : ts.front = .ok t) (other : t.lexeme ≠ .newline)
    (more : t.lexeme ≠ .eof)
    (later : ∀ s rest, rest.list.length < ts.list.length → Mirrors .plain rest (f (.ok s)) (g s) post) :
    Mirrors .plain ts (stmt >>= f) (p >>= g) post := by
  have answers := (statement ts).congr (found?_run p front other more)
  have answers' : Mirrors .plain ts stmt (Except.ok <$> p) fun found rest =>
      ∃ s, found = .ok s ∧ rest.list.length < ts.list.length := by
    refine answers.mono_run fun found rest run takes => ?_
    rw [StateT.run_map] at run
    cases made : p.run ts with
    | error failure =>
      rw [made] at run
      cases run
    | ok made =>
      rw [made] at run
      cases run
      exact ⟨_, rfl, takes _ rfl⟩
  have same : p >>= g = (Except.ok <$> p) >>= behindFound g :=
    (bind_map_left Except.ok p (behindFound g)).symm
  rw [same]
  refine .bind answers' fun found rest made => ?_
  obtain ⟨s, rfl, fewer⟩ := made
  exact later s rest fewer

theorem blockRest (fuel : Nat) (ts : Tokens) :
    Mirrors .plain ts (blockRest stmt fuel) (Stmt.blockRest p fuel) (Keeps ts) := by
  induction fuel generalizing ts with
  | zero => exact .exhausted
  | succ fuel ih =>
    refine .behindNewlines rfl fun t rest₁ peeked keeps => ?_
    split
    · rename_i closes
      refine .bind (.next rfl peeked (by simp [closes])) fun _ rest₂ taken => .pure ?_
      exact Nat.le_trans (Nat.le_of_lt taken.2) keeps
    split
    · exact .fail _ _
    · rename_i more
      have other : t.lexeme ≠ .newline := by
        have front : ts.skipNewlines.front = .ok t := by
          rw [← show rest₁ = ts.skipNewlines from peeked.passed]
          exact peeked.front
        exact Tokens.front_skipNewlines_ne front
      refine bind_statement statement peeked.front other more fun s rest₂ fewer => ?_
      refine .bind (ih rest₂) fun more rest₃ kept => .pure ?_
      unfold Keeps at *
      omega

theorem block (fuel : Nat) : Mirrors .plain ts (block stmt fuel) (Stmt.block p fuel) (Takes ts) := by
  refine .bind (.consumeMark rfl) fun _ rest taken => ?_
  refine (Mirrors.inBlock (blockRest statement fuel rest)).mono fun _ rest₁ kept => ?_
  exact Nat.lt_of_le_of_lt kept taken

theorem functionDecl (fuel : Nat) :
    Mirrors .plain ts (functionDecl stmt fuel) (Stmt.functionDecl p fuel) (Takes ts) := by
  refine .bind (.consume rfl nofun) fun t rest taken => ?_
  refine .bind (.consumeName rfl) fun name rest₁ taken₁ => ?_
  refine .bind (.enclosed (fun ts => .consumeName (Flags.mode_bracketed _)) fuel) fun found rest₂ taken₂ => ?_
  refine .bind (block statement fuel) fun body rest₃ taken₃ => .pure ?_
  unfold Takes at *
  omega

theorem members (structName : String) (bound fuel : Nat) (ts : Tokens) :
    Mirrors .plain ts (members stmt structName bound fuel) (Stmt.members p structName bound fuel)
      (Keeps ts) := by
  induction fuel generalizing ts with
  | zero => exact .exhausted
  | succ fuel ih =>
    refine .behindNewlines rfl fun t rest₁ peeked keeps => ?_
    -- a token that is passed over
    have passes : t.lexeme ≠ .eof → Mirrors .plain rest₁
        (do let _ ← Counting.next; Counting.members stmt structName bound fuel)
        (do let _ ← Parser.next .plain; Stmt.members p structName bound fuel) (Keeps ts) := by
      intro more
      refine .bind (.next rfl peeked more) fun _ rest₂ taken => ?_
      refine (ih rest₂).mono fun _ rest₃ kept => ?_
      have := taken.2
      unfold Keeps at *
      omega
    rcases t with ⟨l, place⟩
    cases l with
    | ident name =>
      refine .bind (.next rfl peeked nofun) fun _ rest₂ taken => ?_
      refine .bind (ih rest₂) fun found rest₃ kept => .pure ?_
      have := taken.2
      unfold Keeps at *
      omega
    | comment text => exact passes nofun
    | keyword word =>
      cases word with
      | defWord =>
        refine .bind (functionDecl statement bound) fun method rest₂ taken => ?_
        refine .bind (ih rest₂) fun found rest₃ kept => .pure ?_
        unfold Takes Keeps at *
        omega
      | _ => exact .fail _ _
    | punct mark =>
      cases mark with
      | rightBrace =>
        refine .bind (.next rfl peeked nofun) fun _ rest₂ taken => .pure ?_
        exact Nat.le_trans (Nat.le_of_lt taken.2) keeps
      | comma => exact passes nofun
      | _ => exact .fail _ _
    | _ => exact .fail _ _

theorem structDeclaration (fuel : Nat) :
    Mirrors .plain ts (structDeclaration stmt fuel) (Stmt.structDeclaration p fuel) (Takes ts) := by
  refine .bind (.consume rfl nofun) fun t rest taken => ?_
  refine .bind (.consumeName rfl) fun name rest₁ taken₁ => ?_
  refine .bind (.consumeMark rfl) fun _ rest₂ taken₂ => ?_
  refine .bind (members statement _ fuel fuel rest₂) fun found rest₃ kept => .pure ?_
  unfold Takes Keeps at *
  omega

theorem branches (bound fuel : Nat) (ts : Tokens) :
    Mirrors .plain ts (branches stmt bound fuel) (Stmt.branches p bound fuel) (Keeps ts) := by
  induction fuel generalizing ts with
  | zero => exact .exhausted
  | succ fuel ih =>
    refine .bind .mark fun place ts marked => ?_
    obtain ⟨rfl, rfl⟩ := marked
    refine .behindNewlines rfl fun t rest₁ peeked keeps => ?_
    have goesBack : Mirrors .plain rest₁ (do reset ts; return ([], none))
        (do set ts; return ([], none) : Parser (List (Expr × Block) × Option Block)) (Keeps ts) := by
      refine .bind (.reset ts) fun _ rest₂ back => .pure ?_
      rw [back]
      exact Nat.le_refl _
    rcases t with ⟨l, p⟩
    cases l with
    | keyword word =>
      cases word with
      | elifWord =>
        refine .bind (.next rfl peeked nofun) fun _ rest₂ taken => ?_
        refine .bind (heading bound) fun condition rest₃ taken₁ => ?_
        refine .bind (block statement bound) fun body rest₄ taken₂ => ?_
        refine .bind (ih rest₄) fun found rest₅ kept => .pure ?_
        have := taken.2
        unfold Takes Keeps at *
        omega
      | elseWord =>
        refine .bind (.next rfl peeked nofun) fun _ rest₂ taken => ?_
        refine .bind (block statement bound) fun body rest₃ taken₁ => .pure ?_
        have := taken.2
        unfold Takes Keeps at *
        omega
      | _ => exact goesBack
    | _ => exact goesBack

theorem ifStatement (fuel : Nat) :
    Mirrors .plain ts (ifStatement stmt fuel) (Stmt.ifStatement p fuel) (Takes ts) := by
  refine .bind (.consume rfl nofun) fun t rest taken => ?_
  refine .bind (heading fuel) fun condition rest₁ taken₁ => ?_
  refine .bind (block statement fuel) fun body rest₂ taken₂ => ?_
  refine .bind (branches statement fuel fuel rest₂) fun found rest₃ kept => .pure ?_
  unfold Takes Keeps at *
  omega

theorem forStatement (fuel : Nat) :
    Mirrors .plain ts (forStatement stmt fuel) (Stmt.forStatement p fuel) (Takes ts) := by
  refine .bind (.consume rfl nofun) fun t rest taken => ?_
  refine .bind loopNames? fun names rest₁ kept => ?_
  cases names with
  | some names =>
    refine .bind (heading fuel) fun target rest₂ taken₁ => ?_
    refine .bind (block statement fuel) fun body rest₃ taken₂ => .pure ?_
    unfold Takes Keeps at *
    omega
  | none =>
    refine .bind (heading fuel) fun condition rest₂ taken₁ => ?_
    refine .bind (block statement fuel) fun body rest₃ taken₂ => .pure ?_
    unfold Takes Keeps at *
    omega

theorem statementAt (fuel : Nat) (t : Token) (ts : Tokens) (front : ts.front = .ok t) :
    Mirrors .plain ts (statementAt stmt fuel t) (Stmt.parseLevel p fuel) (Takes ts) := by
  refine looked front ?_
  have peeked : Peeked .plain ts t ts := ⟨front, rfl⟩
  -- a word that is a statement
  have single : ∀ s : Stmt, t.lexeme ≠ .eof → Mirrors .plain ts (do let _ ← Counting.next; return s)
      (do let _ ← Parser.next .plain; return s) (Takes ts) := fun s more =>
    .bind (.next rfl peeked more) fun _ rest taken => .pure taken.2
  have simple : Mirrors .plain ts (Counting.simpleStatement fuel) (Stmt.simpleStatement fuel) (Takes ts) :=
    simpleStatement fuel
  rcases t with ⟨l, place⟩
  cases l with
  | comment text => exact single _ nofun
  | keyword word =>
    cases word with
    | importWord =>
      refine .bind (.next rfl peeked nofun) fun _ rest taken => ?_
      refine .bind (importPath fuel) fun target rest₁ kept => .pure ?_
      exact Nat.lt_of_le_of_lt kept taken.2
    | defWord => exact .bind (functionDecl statement fuel) fun decl rest taken => .pure taken
    | structWord => exact structDeclaration statement fuel
    | ifWord => exact ifStatement statement fuel
    | forWord => exact forStatement statement fuel
    | returnWord => exact returnStatement fuel
    | breakWord | continueWord => exact single _ nofun
    | _ => exact simple
  | _ => exact simple

end Statement

/-- A call answers a statement or the end of the input, as it is made behind newlines. -/
theorem statement (fuel : Nat) (ts : Tokens) :
    Mirrors .plain ts (statement fuel) (Program.statement? fuel) (TakesStmt ts) := by
  rw [statement?_eq]
  induction fuel generalizing ts with
  | zero => exact calling (fun _ _ _ => .exhausted) ts
  | succ fuel ih => exact calling (statementAt ih (fuel + 1)) ts

end Mirrors

end Shiba.Counting

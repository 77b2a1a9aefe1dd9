import Shiba.Proofs.Stepwise.Following

/-!
# Reading an expression

The parsers of expressions are followed by a reading, from where an operand has to come to where one
stands with all its suffixes (`Expr.follows_parse`).  The parser climbs from level to level of the table
of operators, the reading keeps the operators that wait for their right operand: what the parser of
one level knows about the operators around it is `Looser`.
-/

namespace Shiba.Stepwise

open Shiba.Expr (unaryOp? binaryOp?)

variable {whole : Program} {r : Reading} {head : Head} {pending pending' : List Pending}
  {look look' : Look} {ts : Tokens} {t : Token} {mode : Mode} {e : Shiba.Expr}
  {nested : Parser Shiba.Expr} {bound : Nat}

/-! ## Moves -/

theorem offer_of_take (move : look.move pending t = .take pending' look') :
    ({ r with now := .expr head pending look } : Reading).offer t = r.go (.expr head pending' look') := by
  simp only [Reading.offer, Reading.inExpr, move]
  rfl

theorem offer_of_reject {failure : Source.Failure} (move : look.move pending t = .reject failure) :
    ({ r with now := .expr head pending look } : Reading).offer t =
      .error ⟨r.done, .failed failure⟩ := by
  simp only [Reading.offer, Reading.inExpr, move]
  rfl

theorem offer_congr (move : look.move pending t = look'.move pending' t) :
    ({ r with now := .expr head pending look } : Reading).offer t =
      ({ r with now := .expr head pending' look' } : Reading).offer t := by
  simp only [Reading.offer, Reading.inExpr, move]
  rfl

/-- An operand that has all its suffixes stands at the front of tokens that start with no operator of a
level or a tighter one. -/
structure Valued (whole : Program) (r : Reading) (head : Head) (pending : List Pending) (mode : Mode)
    (level : Nat) (e : Shiba.Expr) (ts : Tokens) : Prop where
  stands : At whole r (.expr head pending (.value mode e)) ts
  front : ∃ t, Meets (.expr head pending (.value mode e)) ts t ∧
    ∀ op, binaryOp? t.lexeme = some op → op.level < level

/-- The innermost operator that waits, if it stands in the same brackets, binds less than a level. -/
def Looser (level : Nat) : List Pending → Prop
  | [] => True
  | .unary .. :: _ => False
  | .binary _ op _ :: _ => op.level < level
  | .bracket .. :: _ => True

/-- A parser of the expressions without operators looser than `level` outside brackets. -/
def ReadsLevel (whole : Program) (r : Reading) (head : Head) (p : Parser Shiba.Expr) (mode : Mode)
    (level bound : Nat) : Prop :=
  ∀ pending ts, ts.list.length < bound → Looser level pending →
    At whole r (.expr head pending (.operand mode)) ts →
    Follows whole r p ts fun e rest =>
      rest.list.length < ts.list.length ∧ Valued whole r head pending mode level e rest

/-! ## Brackets -/

/-- What an open bracket holds is read by the parser for nested expressions. -/
theorem follows_item {outside : Mode} {b : Bracket}
    (reads : ReadsLevel whole r head nested .bracketed 0 bound) (enough : ts.list.length < bound)
    (stands : At whole r (.expr head pending (.item outside b)) ts)
    (meets : Meets (.expr head pending (.item outside b)) ts t)
    (starts : itemMove outside b pending t = operandMove .bracketed (.bracket outside b :: pending) t) :
    Follows whole r nested ts fun e rest => rest.list.length < ts.list.length ∧
      Valued whole r head (.bracket outside b :: pending) .bracketed 0 e rest := by
  refine reads _ ts enough trivial (stands.congr meets (fun newline => ?_) (offer_congr starts))
  exact absurd (meets.settled newline) nofun

theorem Valued.no_operator (valued : Valued whole r head pending .bracketed 0 e ts)
    (front : (ts.seen .bracketed).front = .ok t) : binaryOp? t.lexeme = none := by
  obtain ⟨t', meets, none⟩ := valued.front
  rw [meets.seen fun _ => rfl, meets.front] at front
  cases front
  cases found : binaryOp? t.lexeme with
  | none => rfl
  | some op => exact absurd (none op found) (Nat.not_lt_zero _)

/-- A token behind an item of a bracket that is no operator. -/
theorem move_behind {outside : Mode} {b : Bracket} (none : binaryOp? t.lexeme = none) :
    (Look.value .bracketed e).move (.bracket outside b :: pending) t =
      b.behind outside e pending t := by
  simp only [Look.move, valueMove, none]

theorem Bracket.behind_of_comma {outside : Mode} {b : Bracket} (comma : t.lexeme = .punct .comma)
    (goesOn : b.comma? outside e = some look) :
    b.behind outside e pending t = .take pending look := by
  simp only [behind, comma, goesOn]

theorem Bracket.behind_of_ne {outside : Mode} {b : Bracket}
    (comma : t.lexeme = .punct .comma → b.comma? outside e = none)
    (colon : t.lexeme = .punct .colon → ∀ p target, b ≠ .index p target) :
    b.behind outside e pending t =
      if t.lexeme = .punct b.wanted then b.closing outside e pending
      else .fail (.expected b.wanted.text t.lexeme) t := by
  unfold behind
  split
  · simp_all
  · rename_i same
    exact absurd rfl (colon same _ _)
  · rfl

/-- The mark that a bracket wants behind its item. -/
theorem Valued.follows_wanted {outside : Mode} {b : Bracket} {post : Token → Tokens → Prop}
    (valued : Valued whole r head (.bracket outside b :: pending) .bracketed 0 e ts)
    (comma : b.comma? outside e = none)
    (colon : ∀ t, ts.front = .ok t → t.lexeme = .punct .colon → ∀ p target, b ≠ .index p target)
    (closing : b.closing outside e pending = .take pending' look)
    (goesOn : ∀ t rest, Past whole r ts (.expr head pending' look) rest → post t rest) :
    Follows whole r (Parser.consumeMark .bracketed b.wanted) ts post := by
  obtain ⟨t, meets, no⟩ := valued.front
  have settled : Mode.bracketed.multiline = true → t.lexeme ≠ .newline := meets.visible fun _ => rfl
  have none : binaryOp? t.lexeme = none :=
    valued.no_operator ((congrArg _ (meets.seen fun _ => rfl)).trans meets.front)
  have behind : (Look.value .bracketed e).move (.bracket outside b :: pending) t =
      if t.lexeme = .punct b.wanted then b.closing outside e pending
      else .fail (.expected b.wanted.text t.lexeme) t :=
    (move_behind none).trans (Bracket.behind_of_ne (fun _ => comma) (colon t meets.front))
  refine Follows.bind (Follows.peek_known meets.front settled ?_)
  split
  · rename_i same
    refine Follows.next_known meets.front settled (goesOn t _ ?_)
    refine valued.stands.take meets (by rw [same]; nofun) (offer_of_take ?_)
    rw [behind, if_pos same, closing]
  · rename_i differs
    exact Follows.fail (valued.stands.stop meets (offer_of_reject (behind.trans (if_neg differs))))

/-- A bracket that holds expressions divided by commas. -/
structure Bracket.Lists (b : List Shiba.Expr → Bracket) (made : List Shiba.Expr → Shiba.Expr)
    (close : Punctuator) : Prop where
  closed : ∀ before, (b before).closed? (.punct close) = some (made before)
  item : ∀ outside before pending t, t.lexeme ≠ .punct close →
    itemMove outside (b before) pending t =
      operandMove .bracketed (.bracket outside (b before) :: pending) t
  comma : ∀ outside e before, (b before).comma? outside e = some (.item outside (b (before ++ [e])))
  unsliced : ∀ before p target, b before ≠ .index p target
  wanted : ∀ before, (b before).wanted = close
  closing : ∀ outside e pending before,
    (b before).closing outside e pending = .take pending (.suffix outside (made (before ++ [e])))

theorem Bracket.lists_list (p : Position) : Lists (.list p) (.list p) .rightBracket where
  closed _ := rfl
  item outside before pending t other := by
    simp only [itemMove, closed?]
    split <;> simp_all
  comma _ _ _ := rfl
  unsliced := nofun
  wanted _ := rfl
  closing _ _ _ _ := rfl

theorem Bracket.lists_call (p : Position) (callee : Shiba.Expr) :
    Lists (.call p callee) (.call p callee) .rightParen where
  closed _ := rfl
  item outside before pending t other := by
    simp only [itemMove, closed?]
    split <;> simp_all
  comma _ _ _ := rfl
  unsliced := nofun
  wanted _ := rfl
  closing _ _ _ _ := rfl

/-- Expressions divided by commas are items. -/
theorem Bracket.Lists.items {b : List Shiba.Expr → Bracket} {made : List Shiba.Expr → Shiba.Expr}
    {close : Punctuator} (lists : Lists b made close)
    (reads : ReadsLevel whole r head nested .bracketed 0 bound) (no : binaryOp? (.punct close) = none)
    (differ : close ≠ .comma) :
    Items whole r nested close bound (fun before => .expr head pending (.item mode (b before)))
      (fun before e => .expr head (.bracket mode (b before) :: pending) (.value .bracketed e))
      (fun xs => .expr head pending (.suffix mode (made xs))) where
  item_skips _ := rfl
  behind_skips _ _ := rfl
  end_item before t ends := by
    refine offer_of_take ?_
    simp only [Look.move, itemMove, ends, lists.closed]
  follows before t ts enough meets other stands := by
    refine (follows_item reads enough stands meets (lists.item mode before pending t other)).mono
      fun e rest ⟨fewer, valued⟩ => ⟨⟨fewer, valued.stands⟩, fun t' front comma differs => ?_⟩
    refine offer_of_reject ?_
    rw [move_behind (valued.no_operator front),
      Bracket.behind_of_ne (fun h => absurd h comma) (fun _ => lists.unsliced before), lists.wanted,
      if_neg differs]
    rfl
  comma before e t comma := by
    refine offer_of_take ?_
    rw [move_behind (by rw [comma]; rfl), Bracket.behind_of_comma comma (lists.comma mode e before)]
  end_behind before e t ends := by
    refine offer_of_take ?_
    rw [move_behind (by rw [ends, no]), Bracket.behind_of_ne
      (fun h => absurd (ends.symm.trans h) (by simp [differ])) (fun _ => lists.unsliced before),
      lists.wanted, if_pos ends, lists.closing]

/-- The entries of a dictionary are items. -/
theorem items_dict (p : Position) (reads : ReadsLevel whole r head nested .bracketed 0 bound) :
    Items whole r (Shiba.Expr.dictEntry nested) .rightBrace bound
      (fun before => .expr head pending (.item mode (.key p before)))
      (fun before entry =>
        .expr head (.bracket mode (.value p before entry.1) :: pending) (.value .bracketed entry.2))
      (fun entries => .expr head pending (.suffix mode (.dict p entries))) where
  item_skips _ := rfl
  behind_skips _ _ := rfl
  end_item before t ends := by
    refine offer_of_take ?_
    simp only [Look.move, itemMove, ends, Bracket.closed?]
  follows before t ts enough meets other stands := by
    have starts : itemMove mode (.key p before) pending t =
        operandMove .bracketed (.bracket mode (.key p before) :: pending) t := by
      simp only [itemMove, Bracket.closed?]
      split <;> simp_all
    refine Follows.andThen (follows_item reads enough stands meets starts)
      fun key ts₁ ⟨fewer₁, valued₁⟩ => ?_
    refine Follows.bind (valued₁.follows_wanted rfl (by nofun) rfl fun _ ts₂ past => ?_)
    have fewer₂ := past.fewer
    refine Follows.andThen (reads _ _ (by omega) (by trivial) past.stands)
      fun value ts₃ ⟨fewer₃, valued₂⟩ => ?_
    refine Follows.pure ⟨⟨by omega, valued₂.stands⟩, fun t' front comma differs => ?_⟩
    refine offer_of_reject ?_
    rw [move_behind (valued₂.no_operator front), Bracket.behind_of_ne (fun h => absurd h comma)
      (by nofun), Bracket.wanted, if_neg differs]
    rfl
  comma before entry t comma := by
    refine offer_of_take ?_
    rw [move_behind (by rw [comma]; rfl), Bracket.behind_of_comma comma rfl]
  end_behind before entry t ends := by
    refine offer_of_take ?_
    rw [move_behind (by rw [ends]; rfl), Bracket.behind_of_ne
      (fun h => absurd (ends.symm.trans h) (by nofun)) (by nofun), Bracket.wanted, if_pos ends]
    rfl

/-- The fields of a struct initialiser are items. -/
theorem items_fields (p : Position) (name : String) (brace : Position)
    (reads : ReadsLevel whole r head nested .bracketed 0 bound) :
    Items whole r (Shiba.Expr.fieldEntry nested) .rightBrace bound
      (fun before => .expr head pending (.field mode p name brace before))
      (fun before entry =>
        .expr head (.bracket mode (.field p name brace before entry.1) :: pending)
          (.value .bracketed entry.2))
      (fun fields => .expr head pending (.suffix mode (.structInit p name brace fields))) where
  item_skips _ := rfl
  behind_skips _ _ := rfl
  end_item before t ends := by
    refine offer_of_take ?_
    simp only [Look.move, ends]
  follows before t ts enough meets other stands := by
    refine Follows.bind (Follows.consumeName stands rfl (fun t' front unnamed => ?_)
      fun t₁ ts₁ field shorter₁ named meets₁ stands₁ => ?_)
    · rw [meets.seen fun _ => rfl, meets.front] at front
      cases front
      refine offer_of_reject ?_
      simp only [Look.move]
      rfl
    have past₁ := stands₁.take meets₁ (by rw [named]; nofun)
      (offer_of_take (by simp only [Look.move, named]; rfl))
    have fewer₁ := past₁.fewer
    refine Follows.bind (Follows.consume past₁.stands rfl nofun (fun t' differs => ?_)
      fun t₂ ts₂ shorter₂ colon meets₂ stands₂ => ?_)
    · refine offer_of_reject ?_
      simp only [Look.move, if_neg differs]
      rfl
    have past₂ := stands₂.take meets₂ (by rw [colon]; nofun)
      (offer_of_take (by simp only [Look.move, colon, if_true]; rfl))
    have fewer₂ := past₂.fewer
    refine Follows.andThen (reads _ _ (by omega) (by trivial) past₂.stands)
      fun value ts₃ ⟨fewer₃, valued⟩ => ?_
    refine Follows.pure ⟨⟨by omega, valued.stands⟩, fun t' front comma differs => ?_⟩
    refine offer_of_reject ?_
    rw [move_behind (valued.no_operator front), Bracket.behind_of_ne (fun h => absurd h comma)
      (by nofun), Bracket.wanted, if_neg differs]
    rfl
  comma before entry t comma := by
    refine offer_of_take ?_
    rw [move_behind (by rw [comma]; rfl), Bracket.behind_of_comma comma rfl]
  end_behind before entry t ends := by
    refine offer_of_take ?_
    rw [move_behind (by rw [ends]; rfl), Bracket.behind_of_ne
      (fun h => absurd (ends.symm.trans h) (by nofun)) (by nofun), Bracket.wanted, if_pos ends]
    rfl

/-! ## Operands -/

/-- The rest of a slice, the colon at the front. -/
theorem follows_sliceRest {now : Now} {opening : Token} {target : Shiba.Expr} {first : Option Shiba.Expr}
    (reads : ReadsLevel whole r head nested .bracketed 0 bound) (enough : ts.list.length < bound)
    (stands : At whole r now ts) (meets : Meets now ts t) (colon : t.lexeme = .punct .colon)
    (offer : ({ r with now } : Reading).offer t =
      r.go (.expr head pending (.item mode (.bound opening.position target first)))) :
    Follows whole r (Shiba.Expr.sliceRest nested opening target first) ts fun e rest =>
      Past whole r ts (.expr head pending (.suffix mode e)) rest := by
  have past := stands.take meets (by rw [colon]; nofun) offer
  have fewer := past.fewer
  refine Follows.bind (Follows.consume_known meets.front colon nofun ?_)
  refine Follows.bind (Follows.atLexeme past.stands rfl fun t₁ ts₁ shorter meets₁ stands₁ => ?_)
  by_cases ends : t₁.lexeme = .punct .rightBracket
  · rw [if_pos (decide_eq_true ends), pure_bind]
    refine Follows.bind (Follows.consume_known meets₁.front ends nofun ?_)
    have past₁ := stands₁.take meets₁ (by rw [ends]; nofun)
      (offer_of_take (by simp only [Look.move, itemMove, ends, Bracket.closed?]; rfl))
    have fewer₁ := past₁.fewer
    exact Follows.pure ⟨by omega, past₁.stands⟩
  · rw [if_neg (by simpa using ends)]
    have starts : itemMove mode (.bound opening.position target first) pending t₁ =
        operandMove .bracketed (.bracket mode (.bound opening.position target first) :: pending) t₁ := by
      simp only [itemMove, Bracket.closed?]
      split <;> simp_all
    rw [← bind_pure_comp, bind_assoc]
    refine Follows.andThen (follows_item reads (by omega) stands₁ meets₁ starts)
      fun last ts₂ ⟨fewer₂, valued⟩ => ?_
    rw [pure_bind]
    refine Follows.bind (valued.follows_wanted rfl (by nofun) rfl fun _ rest past₂ => ?_)
    have fewer₃ := past₂.fewer
    exact Follows.pure ⟨by omega, past₂.stands⟩

/-- An index or a slice. -/
theorem follows_subscript {target : Shiba.Expr}
    (reads : ReadsLevel whole r head nested .bracketed 0 bound) (enough : ts.list.length ≤ bound)
    (stands : At whole r (.expr head pending (.suffix mode target)) ts)
    (meets : Meets (.expr head pending (.suffix mode target)) ts t)
    (opens : t.lexeme = .punct .leftBracket) :
    Follows whole r (Shiba.Expr.subscript nested target) ts fun e rest =>
      Past whole r ts (.expr head pending (.suffix mode e)) rest := by
  have past := stands.take meets (by rw [opens]; nofun)
    (offer_of_take (by simp only [Look.move, suffixMove, opens]; rfl))
  have fewer := past.fewer
  refine Follows.bind (Follows.consume_known meets.front opens nofun ?_)
  refine Follows.bind (Follows.atLexeme past.stands rfl fun t₁ ts₁ shorter meets₁ stands₁ => ?_)
  by_cases colon : t₁.lexeme = .punct .colon
  · rw [if_pos (decide_eq_true colon)]
    have move : (Look.item mode (.index t.position target)).move pending t₁ =
        .take pending (.item mode (.bound t.position target none)) := by
      simp only [Look.move, itemMove, colon, Bracket.closed?]
    refine (follows_sliceRest reads (by omega) stands₁ meets₁ colon (offer_of_take move)).mono
      fun e rest past₁ => ?_
    have fewer₁ := past₁.fewer
    exact ⟨by omega, past₁.stands⟩
  rw [if_neg (by simpa using colon)]
  have starts : itemMove mode (.index t.position target) pending t₁ =
      operandMove .bracketed (.bracket mode (.index t.position target) :: pending) t₁ := by
    simp only [itemMove, Bracket.closed?]
    split <;> simp_all
  refine Follows.andThen (follows_item reads (by omega) stands₁ meets₁ starts)
    fun first ts₂ ⟨fewer₂, valued⟩ => ?_
  obtain ⟨t₂, meets₂, no⟩ := valued.front
  refine Follows.bind (Follows.atLexeme_known meets₂.front (meets₂.visible fun _ => rfl) ?_)
  by_cases colon : t₂.lexeme = .punct .colon
  · rw [if_pos (decide_eq_true colon)]
    have move : (Look.value .bracketed first).move
        (.bracket mode (.index t.position target) :: pending) t₂ =
        .take pending (.item mode (.bound t.position target (some first))) := by
      rw [move_behind (by rw [colon]; rfl)]
      simp only [Bracket.behind, colon, Bracket.comma?]
    refine (follows_sliceRest reads (by omega) valued.stands meets₂ colon (offer_of_take move)).mono
      fun e rest past₁ => ?_
    have fewer₁ := past₁.fewer
    exact ⟨by omega, past₁.stands⟩
  · rw [if_neg (by simpa using colon)]
    refine Follows.bind (valued.follows_wanted rfl (fun t' front isColon => ?_) rfl
      fun _ rest past₁ => ?_)
    · rw [meets₂.front] at front
      cases front
      exact absurd isColon colon
    · have fewer₁ := past₁.fewer
      exact Follows.pure ⟨by omega, past₁.stands⟩

/-- A literal is one token. -/
theorem follows_literal {literal : Shiba.Literal}
    (stands : At whole r (.expr head pending (.operand mode)) ts)
    (meets : Meets (.expr head pending (.operand mode)) ts t) (more : t.lexeme ≠ .eof)
    (move : (Look.operand mode).move pending t = .take pending (.suffix mode (.literal t.position literal))) :
    Follows whole r (do let _ ← Parser.next mode; return .literal t.position literal) ts fun e rest =>
      Past whole r ts (.expr head pending (.suffix mode e)) rest :=
  Follows.bind (Follows.next_known meets.front (meets.visible id)
    (Follows.pure (stands.take meets more (offer_of_take move))))

theorem move_operand (operand : unaryOp? t.lexeme = none) :
    (Look.operand mode).move pending t = primaryMove mode pending t := by
  simp only [Look.move, operandMove, operand]

/-- A number that is too long or too large is blamed, and any other is a literal. -/
theorem follows_number {text : String} (stands : At whole r (.expr head pending (.operand mode)) ts)
    (meets : Meets (.expr head pending (.operand mode)) ts t) (number : t.lexeme = .number text) :
    Follows whole r (do let _ ← Parser.next mode; Shiba.Expr.number t text) ts fun e rest =>
      Past whole r ts (.expr head pending (.suffix mode e)) rest := by
  have more : t.lexeme ≠ .eof := by rw [number]; nofun
  have look : (Look.operand mode).move pending t = primaryMove mode pending t :=
    move_operand (by rw [number]; rfl)
  refine Follows.bind (Follows.next_known meets.front (meets.visible id) ?_)
  unfold Shiba.Expr.number
  dsimp only
  split
  · rename_i point
    refine Follows.pure (stands.take meets more (offer_of_take ?_))
    simp only [look, primaryMove, number, point, if_true]
  · rename_i point
    split
    · rename_i long
      refine Follows.fail (stands.stop meets (offer_of_reject ?_))
      simp only [look, primaryMove, number, point, if_pos long]
      rfl
    rename_i short
    split
    · rename_i fits
      refine Follows.pure (stands.take meets more (offer_of_take ?_))
      simp only [look, primaryMove, number, point, if_neg short, if_pos fits]
      rfl
    · rename_i large
      refine Follows.fail (stands.stop meets (offer_of_reject ?_))
      simp only [look, primaryMove, number, point, if_neg short, if_neg large]
      rfl

/-- A name is one by itself, or that of the struct that is initialised in the braces behind it. -/
theorem follows_ident {fuel : Nat} {name : String}
    (reads : ReadsLevel whole r head nested .bracketed 0 bound) (enough : ts.list.length < fuel)
    (deep : ts.list.length ≤ bound) (stands : At whole r (.expr head pending (.operand mode)) ts)
    (meets : Meets (.expr head pending (.operand mode)) ts t) (ident : t.lexeme = .ident name) :
    Follows whole r (do
        let _ ← Parser.next mode
        let brace ← Parser.atMark mode .leftBrace
        if brace && !mode.header then
          let (opening, fields) ←
            Parser.enclosed (Shiba.Expr.fieldEntry nested) .leftBrace .rightBrace fuel
          return .structInit t.position name opening.position fields
        else return .ident t.position name) ts fun e rest =>
      Past whole r ts (.expr head pending (.suffix mode e)) rest := by
  have look : (Look.operand mode).move pending t = primaryMove mode pending t :=
    move_operand (by rw [ident]; rfl)
  have past := stands.take meets (by rw [ident]; nofun)
    (offer_of_take (by simp only [look, primaryMove, ident]; rfl))
  have fewer := past.fewer
  refine Follows.bind (Follows.next_known meets.front (meets.visible id) ?_)
  refine Follows.bind (Follows.atLexeme past.stands rfl fun t₁ ts₁ shorter meets₁ stands₁ => ?_)
  by_cases opens : t₁.lexeme = .punct .leftBrace ∧ mode.header = false
  · rw [if_pos (by simp [opens.1, opens.2])]
    have past₁ := stands₁.take meets₁ (by rw [opens.1]; nofun)
      (offer_of_take (by simp only [Look.move, if_pos opens]; rfl))
    refine Follows.bind ((items_fields t.position name t₁.position reads).follows_enclosed (by omega)
      (by omega) meets₁.front opens.1 past₁ fun fields rest past₂ => ?_)
    have fewer₂ := past₂.fewer
    exact Follows.pure ⟨by omega, past₂.stands⟩
  · rw [if_neg (by simpa using opens)]
    refine Follows.pure ⟨by omega, stands₁.congr meets₁ meets₁.settled (offer_congr ?_)⟩
    simp only [Look.move, if_neg opens]

/-- An expression in parentheses. -/
theorem follows_parens (reads : ReadsLevel whole r head nested .bracketed 0 bound)
    (deep : ts.list.length ≤ bound) (stands : At whole r (.expr head pending (.operand mode)) ts)
    (meets : Meets (.expr head pending (.operand mode)) ts t) (opens : t.lexeme = .punct .leftParen) :
    Follows whole r (do
        let _ ← Parser.next .bracketed
        let e ← nested
        let _ ← Parser.consumeMark .bracketed .rightParen
        return e) ts fun e rest =>
      Past whole r ts (.expr head pending (.suffix mode e)) rest := by
  have look : (Look.operand mode).move pending t = primaryMove mode pending t :=
    move_operand (by rw [opens]; rfl)
  have past := stands.take meets (by rw [opens]; nofun)
    (offer_of_take (by simp only [look, primaryMove, opens]; rfl))
  have fewer := past.fewer
  refine Follows.bind (Follows.next_known meets.front (fun _ => by rw [opens]; nofun) ?_)
  refine Follows.andThen (reads _ _ (by omega) (by trivial) past.stands)
    fun e ts₁ ⟨fewer₁, valued⟩ => ?_
  refine Follows.bind (valued.follows_wanted rfl (by nofun) rfl fun _ rest past₁ => ?_)
  have fewer₂ := past₁.fewer
  exact Follows.pure ⟨by omega, past₁.stands⟩

theorem follows_primary {fuel : Nat} (reads : ReadsLevel whole r head nested .bracketed 0 bound)
    (enough : ts.list.length < fuel) (deep : ts.list.length ≤ bound)
    (stands : At whole r (.expr head pending (.operand mode)) ts)
    (meets : Meets (.expr head pending (.operand mode)) ts t) (operand : unaryOp? t.lexeme = none) :
    Follows whole r (Shiba.Expr.primary nested mode fuel) ts fun e rest =>
      Past whole r ts (.expr head pending (.suffix mode e)) rest := by
  have look : (Look.operand mode).move pending t = primaryMove mode pending t := move_operand operand
  refine Follows.bind (Follows.peek_known meets.front (meets.visible id) ?_)
  split
  case h_1 text number => exact follows_number stands meets number
  case h_2 value string =>
    exact follows_literal stands meets (by rw [string]; nofun)
      (by simp only [look, primaryMove, string])
  case h_3 word =>
    exact follows_literal stands meets (by rw [word]; nofun) (by simp only [look, primaryMove, word])
  case h_4 word =>
    exact follows_literal stands meets (by rw [word]; nofun) (by simp only [look, primaryMove, word])
  case h_5 name ident => exact follows_ident reads enough deep stands meets ident
  case h_6 opens => exact follows_parens reads deep stands meets opens
  case h_7 opens =>
    have past := stands.take meets (by rw [opens]; nofun)
      (offer_of_take (by simp only [look, primaryMove, opens]; rfl))
    refine Follows.bind (((Bracket.lists_list t.position).items reads rfl nofun).follows_enclosed
      (by omega) deep meets.front opens past fun elements rest past₁ => ?_)
    exact Follows.pure past₁
  case h_8 opens =>
    have past := stands.take meets (by rw [opens]; nofun)
      (offer_of_take (by simp only [look, primaryMove, opens]; rfl))
    refine Follows.bind ((items_dict t.position reads).follows_enclosed
      (by omega) deep meets.front opens past fun entries rest past₁ => ?_)
    exact Follows.pure past₁
  case h_9 =>
    refine Follows.fail (stands.stop meets (offer_of_reject ?_))
    simp only [look, primaryMove]
    rfl

theorem follows_suffixes (reads : ReadsLevel whole r head nested .bracketed 0 bound)
    (fuel : Nat) (enough : ts.list.length < fuel) (deep : ts.list.length ≤ bound)
    (stands : At whole r (.expr head pending (.suffix mode e)) ts) :
    Follows whole r (Shiba.Expr.suffixes nested mode fuel e) ts fun e rest =>
      rest.list.length ≤ ts.list.length ∧
        Valued whole r head pending mode BinaryOp.levels e rest := by
  induction fuel generalizing ts e with
  | zero => omega
  | succ fuel ih =>
    refine Follows.bind (Follows.peek stands rfl fun t ts₁ shorter meets stands₁ => ?_)
    have visible : mode.multiline = true → t.lexeme ≠ .newline := meets.visible id
    -- a suffix that has been read is behind us, and the next one may follow
    have again : ∀ {e : Shiba.Expr} {rest : Tokens},
        Past whole r ts₁ (.expr head pending (.suffix mode e)) rest →
        Follows whole r (Shiba.Expr.suffixes nested mode fuel e) rest fun e rest' =>
          rest'.list.length ≤ ts.list.length ∧
            Valued whole r head pending mode BinaryOp.levels e rest' := fun past => by
      have fewer := past.fewer
      exact (ih (by omega) (by omega) past.stands).mono fun e rest valued => ⟨by omega, valued.2⟩
    split
    case h_1 opens =>
      have past := stands₁.take meets (by rw [opens]; nofun)
        (offer_of_take (by simp only [Look.move, suffixMove, opens]; rfl))
      refine Follows.bind (((Bracket.lists_call t.position e).items reads rfl nofun).follows_enclosed
        (by omega) (by omega) meets.front opens past fun args rest past₁ => ?_)
      exact again past₁
    case h_2 opens =>
      exact Follows.andThen (follows_subscript reads (by omega) stands₁ meets opens)
        fun e rest past => again past
    case h_3 dot =>
      have past := stands₁.take meets (by rw [dot]; nofun)
        (offer_of_take (by simp only [Look.move, suffixMove, dot]; rfl))
      have fewer := past.fewer
      refine Follows.bind (Follows.next_known meets.front visible ?_)
      refine Follows.bind (Follows.consumeName past.stands rfl (fun t₁ front unnamed => ?_)
        fun t₁ ts₂ name shorter₁ named meets₁ stands₂ => ?_)
      · refine offer_of_reject ?_
        simp only [Look.move]
        rfl
      · have past₁ := stands₂.take meets₁ (by rw [named]; nofun)
          (offer_of_take (by simp only [Look.move, named]; rfl))
        have fewer₁ := past₁.fewer
        exact again ⟨by omega, past₁.stands⟩
    case h_4 paren bracket dot =>
      have move : (Look.suffix mode e).move pending t = (Look.value mode e).move pending t := by
        simp only [Look.move, suffixMove]
      exact Follows.pure ⟨shorter, stands₁.congr meets meets.settled (offer_congr move),
        ⟨t, ⟨meets.front, meets.settled⟩, fun op _ => op.level_lt⟩⟩

/-- An operand behind any number of unary operators. -/
theorem follows_operand (reads : ReadsLevel whole r head nested .bracketed 0 bound)
    (fuel : Nat) (enough : ts.list.length < fuel) (deep : ts.list.length ≤ bound)
    (stands : At whole r (.expr head pending (.operand mode)) ts) :
    Follows whole r (Shiba.Expr.operand nested mode fuel) ts fun e rest =>
      rest.list.length < ts.list.length ∧
        Valued whole r head pending mode BinaryOp.levels e rest := by
  induction fuel generalizing ts pending with
  | zero => omega
  | succ fuel ih =>
    refine Follows.bind (Follows.peek stands rfl fun t ts₁ shorter meets stands₁ => ?_)
    have visible : mode.multiline = true → t.lexeme ≠ .newline := meets.visible id
    split
    · rename_i op unary
      have more : t.lexeme ≠ .eof := by
        intro eof
        rw [eof] at unary
        cases unary
      have past := stands₁.take meets more
        (offer_of_take (by simp only [Look.move, operandMove, unary]; rfl))
      have fewer := past.fewer
      refine Follows.bind (Follows.next_known meets.front visible ?_)
      refine Follows.andThen (ih (by omega) (by omega) past.stands) fun e rest ⟨fewer₁, valued⟩ => ?_
      -- a unary operator gets its operand before anything else
      obtain ⟨t₂, meets₂, _⟩ := valued.front
      have move : (Look.value mode e).move (.unary t.position op :: pending) t₂ =
          (Look.value mode (.unary t.position op e)).move pending t₂ := rfl
      exact Follows.pure ⟨by omega, valued.stands.congr meets₂ meets₂.settled (offer_congr move),
        ⟨t₂, ⟨meets₂.front, meets₂.settled⟩, fun op _ => op.level_lt⟩⟩
    · rename_i primary
      refine Follows.andThen (follows_primary reads (by omega) (by omega) stands₁ meets primary)
        fun e rest past => ?_
      have fewer := past.fewer
      exact (follows_suffixes reads _ (by omega) (by omega) past.stands).mono
        fun e rest' valued => ⟨by omega, valued.2⟩

/-! ## Operators -/

/-- An operator that binds less than a token takes it as a part of its right operand. -/
theorem move_tighter {op : BinaryOp} (loose : Looser op.level pending)
    (found : binaryOp? t.lexeme = some op) :
    (Look.value mode e).move pending t =
      .take (.binary t.position op e :: pending) (.operand mode) := by
  rcases pending with - | ⟨_ | ⟨p, op', left⟩ | _, pending⟩
  · simp only [Look.move, valueMove, found]
  · exact loose.elim
  · simp only [Look.move, valueMove, found]
    exact if_pos loose
  · simp only [Look.move, valueMove, found]

/-- An operator gets its right operand before a token that is no tighter operator. -/
theorem move_looser {p : Position} {op : BinaryOp} {left : Shiba.Expr}
    (other : ∀ op', binaryOp? t.lexeme = some op' → op'.level ≤ op.level) :
    (Look.value mode e).move (.binary p op left :: pending) t =
      (Look.value mode (.binary p op left e)).move pending t := by
  simp only [Look.move]
  rw [valueMove]
  split
  · rename_i op' found
    rw [if_neg (by have := other op' found; omega)]
  · rfl

theorem Looser.mono {m n : Nat} (loose : Looser m pending) (le : m ≤ n) : Looser n pending := by
  rcases pending with - | ⟨_ | _ | _, pending⟩
  · trivial
  · exact loose.elim
  · exact Nat.lt_of_lt_of_le loose le
  · trivial

/-- The operators of one level behind a left operand. -/
theorem follows_chain {right : Parser Shiba.Expr} {level : Nat}
    (reads : ReadsLevel whole r head right mode (level + 1) bound) (fuel : Nat)
    (enough : ts.list.length < fuel) (deep : ts.list.length ≤ bound) (loose : Looser level pending)
    (valued : Valued whole r head pending mode (level + 1) e ts) :
    Follows whole r (Shiba.Expr.chain right mode level fuel e) ts fun e rest =>
      rest.list.length ≤ ts.list.length ∧ Valued whole r head pending mode level e rest := by
  induction fuel generalizing ts e with
  | zero => omega
  | succ fuel ih =>
    obtain ⟨t, meets, below⟩ := valued.front
    have visible : mode.multiline = true → t.lexeme ≠ .newline := meets.visible id
    -- without an operator of this level the expression is left as it is
    have finished : (∀ op, binaryOp? t.lexeme = some op → op.level < level) →
        Follows whole r (pure e) ts fun e rest =>
          rest.list.length ≤ ts.list.length ∧ Valued whole r head pending mode level e rest :=
      fun looser => Follows.pure ⟨Nat.le_refl _, valued.stands, t, meets, looser⟩
    refine Follows.bind (Follows.peek_known meets.front visible ?_)
    split
    · rename_i op found
      split
      · rename_i same
        have more : t.lexeme ≠ .eof := by
          intro eof
          rw [eof] at found
          cases found
        have past := valued.stands.take meets more
          (offer_of_take (move_tighter (same ▸ loose) found))
        have fewer := past.fewer
        refine Follows.bind (Follows.next_known meets.front visible ?_)
        have looser : Looser (level + 1) (.binary t.position op e :: pending) :=
          Nat.lt_succ_of_le (Nat.le_of_eq same)
        refine Follows.andThen (reads _ _ (by omega) looser past.stands)
          fun e₁ rest ⟨fewer₁, valued₁⟩ => ?_
        obtain ⟨t₁, meets₁, below₁⟩ := valued₁.front
        have move : (Look.value mode e₁).move (.binary t.position op e :: pending) t₁ =
            (Look.value mode (.binary t.position op e e₁)).move pending t₁ :=
          move_looser fun op' found' => by have := below₁ op' found'; omega
        have joined : Valued whole r head pending mode (level + 1) (.binary t.position op e e₁) rest :=
          ⟨valued₁.stands.congr meets₁ meets₁.settled (offer_congr move), t₁,
            ⟨meets₁.front, meets₁.settled⟩, below₁⟩
        exact (ih (by omega) (by omega) joined).mono fun e₂ rest' valued₂ => ⟨by omega, valued₂.2⟩
      · rename_i differs
        refine finished fun op' found' => ?_
        rw [found] at found'
        cases found'
        have := below op found
        omega
    · rename_i none
      refine finished fun op found => ?_
      rw [none] at found
      cases found

theorem reads_operation {p : Parser Shiba.Expr} {fuel : Nat}
    (reads : ∀ pending ts, ts.list.length < fuel →
      At whole r (.expr head pending (.operand mode)) ts →
      Follows whole r p ts fun e rest => rest.list.length < ts.list.length ∧
        Valued whole r head pending mode BinaryOp.levels e rest)
    (count : Nat) (le : count ≤ BinaryOp.levels) :
    ReadsLevel whole r head (Shiba.Expr.operation p mode fuel count) mode (BinaryOp.levels - count)
      fuel := by
  induction count with
  | zero => exact fun pending ts enough _ stands => reads pending ts enough stands
  | succ count ih =>
    have level : BinaryOp.levels - count = BinaryOp.levels - (count + 1) + 1 := by omega
    have tighter := ih (by omega)
    rw [level] at tighter
    intro pending ts enough loose stands
    refine Follows.andThen (tighter pending ts enough (loose.mono (Nat.le_succ _)) stands)
      fun e rest ⟨fewer, valued⟩ => ?_
    exact (follows_chain tighter fuel (by omega) (by omega) loose valued).mono
      fun e rest' valued' => ⟨by omega, valued'.2⟩

/-- The parser of expressions is followed up to an operand behind which no operator stands. -/
theorem reads_parse (fuel : Nat) (mode : Mode) :
    ReadsLevel whole r head (Shiba.Expr.parse fuel mode) mode 0 fuel := by
  induction fuel generalizing mode with
  | zero => exact fun pending ts enough => absurd enough (Nat.not_lt_zero _)
  | succ fuel ih =>
    refine reads_operation (fun pending ts enough stands => ?_) BinaryOp.levels (Nat.le_refl _)
    exact follows_operand (ih .bracketed) _ enough (by omega) stands

end Shiba.Stepwise

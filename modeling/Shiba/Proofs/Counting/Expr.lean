import Shiba.Proofs.Counting.Mirrors

/-!
# Counting brackets in expressions

The parser of expressions that counts brackets does what the one does that is told the mode
(`Mirrors.expression`).
-/

namespace Shiba.Counting.Mirrors

open Shiba.Expr (unaryOp? binaryOp?)

variable {flags : Flags} {mode : Mode} {ts : Tokens} {e : CountingParser Expr} {p : Parser Expr}

theorem number (t : Token) (text : String) :
    Mirrors flags ts (number t text) (Expr.number t text) (Keeps ts) := by
  unfold Counting.number Expr.number
  dsimp only
  split
  · exact .pure (Nat.le_refl _)
  · split
    · exact .fail _ _
    · split
      · exact .pure (Nat.le_refl _)
      · exact .fail _ _

section Nested

variable (nested : ∀ flags ts, flags.mode = .bracketed → Mirrors flags ts e p (Takes ts))
include nested

theorem dictEntry (told : flags.mode = .bracketed) :
    Mirrors flags ts (dictEntry e) (Expr.dictEntry p) (Takes ts) := by
  refine .bind (nested flags ts told) fun key rest taken => ?_
  refine .bind (.consumeMark told) fun _ rest₁ taken₁ => ?_
  refine .bind (nested flags rest₁ told) fun value rest₂ taken₂ => .pure ?_
  unfold Takes at *
  omega

theorem fieldEntry (told : flags.mode = .bracketed) :
    Mirrors flags ts (fieldEntry e) (Expr.fieldEntry p) (Takes ts) := by
  refine .bind (.consumeName told) fun name rest taken => ?_
  refine .bind (.consumeMark told) fun _ rest₁ taken₁ => ?_
  refine .bind (nested flags rest₁ told) fun value rest₂ taken₂ => .pure ?_
  unfold Takes at *
  omega

theorem primary (told : flags.mode = mode) (fuel : Nat) :
    Mirrors flags ts (primary e fuel) (Expr.primary p mode fuel) (Takes ts) := by
  have inside := flags.mode_bracketed
  refine .bind (.peek told) fun t rest peeked => ?_
  have keeps := peeked.keeps
  -- a literal is one token
  have literal : ∀ x : Expr, t.lexeme ≠ .eof → Mirrors flags rest (do let _ ← Counting.next; return x)
      (do let _ ← Parser.next mode; return x) (Takes ts) := fun x more =>
    .bind (.next told peeked more) fun _ left taken => .pure (Nat.lt_of_lt_of_le taken.2 keeps)
  rcases t with ⟨l, place⟩
  cases l with
  | number text =>
    refine .bind (.next told peeked nofun) fun _ rest₁ taken => ?_
    refine (number _ text).mono fun _ rest₂ kept => ?_
    have := taken.2
    unfold Keeps Takes at *
    omega
  | string value => exact literal _ nofun
  | ident name =>
    refine .bind (.next told peeked nofun) fun _ rest₁ taken => ?_
    refine .bind (.atLexeme told) fun brace rest₂ peeked₁ => .inHeader? ?_
    obtain ⟨t₁, peeked₁, -⟩ := peeked₁
    have fewer : rest₂.list.length < ts.list.length := by
      have := peeked₁.keeps
      omega
    have header : flags.header = mode.header := congrArg Mode.header told
    rw [header]
    split
    · refine .bind (.enclosed (fun ts => fieldEntry nested inside) fuel) fun found rest₃ taken₁ => .pure ?_
      unfold Takes at *
      omega
    · exact .pure fewer
  | keyword word =>
    cases word with
    | trueWord | falseWord => exact literal _ nofun
    | _ => exact .fail _ _
  | punct mark =>
    cases mark with
    | leftParen =>
      refine .nested (.bind (.next inside (.of_front peeked.front nofun) nofun) fun _ rest₁ taken => ?_)
      refine .bind (nested _ rest₁ inside) fun x rest₂ taken₁ => ?_
      refine .bind (.consumeMark inside) fun _ rest₃ taken₂ => .pure ?_
      have := taken.2
      unfold Takes at *
      omega
    | leftBracket =>
      refine .bind (.enclosed (fun ts => nested _ ts inside) fuel) fun found rest₁ taken => .pure ?_
      exact Nat.lt_of_lt_of_le taken keeps
    | leftBrace =>
      refine .bind (.enclosed (fun ts => dictEntry nested inside) fuel) fun found rest₁ taken => .pure ?_
      exact Nat.lt_of_lt_of_le taken keeps
    | _ => exact .fail _ _
  | _ => exact .fail _ _

theorem sliceRest (told : flags.mode = .bracketed) (opening : Token) (target : Expr)
    (first : Option Expr) :
    Mirrors flags ts (sliceRest e opening target first) (Expr.sliceRest p opening target first)
      (Takes ts) := by
  refine .bind (.consumeMark told) fun _ rest taken => ?_
  refine .bind (.atLexeme told) fun found rest₁ peeked => ?_
  obtain ⟨t, peeked, -⟩ := peeked
  have keeps := peeked.keeps
  -- behind the second bound, if there is one, the bracket has to be closed
  have closes : ∀ (last : Option Expr) rest₂, rest₂.list.length ≤ rest₁.list.length →
      Mirrors flags rest₂
        (do let _ ← Counting.consumeMark .rightBracket; return Expr.slice opening.position target first last)
        (do let _ ← Parser.consumeMark .bracketed .rightBracket
            return Expr.slice opening.position target first last) (Takes ts) := by
    intro last rest₂ kept
    refine .bind (.consumeMark told) fun _ rest₃ taken₁ => .pure ?_
    unfold Takes at *
    omega
  dsimp only
  split
  · exact closes none rest₁ (Nat.le_refl _)
  · have bound : Mirrors flags rest₁ (some <$> e) (some <$> p) (Keeps rest₁) :=
      .map some (nested flags rest₁ told) fun _ _ taken₁ => Nat.le_of_lt taken₁
    exact .bind bound closes

theorem subscript (target : Expr) :
    Mirrors flags ts (subscript e target) (Expr.subscript p target) (Takes ts) := by
  have told := flags.mode_bracketed
  refine .nested (.bind (.consumeMark told) fun t rest taken => ?_)
  refine .bind (.atLexeme told) fun found rest₁ peeked => ?_
  obtain ⟨t₁, peeked, -⟩ := peeked
  have keeps := peeked.keeps
  split
  · refine (sliceRest nested told t target none).mono fun _ rest₂ taken₁ => ?_
    unfold Takes at *
    omega
  · refine .bind (nested _ rest₁ told) fun first rest₂ taken₁ => ?_
    refine .bind (.atLexeme told) fun found rest₃ peeked₁ => ?_
    obtain ⟨t₂, peeked₁, -⟩ := peeked₁
    have keeps₁ := peeked₁.keeps
    split
    · refine (sliceRest nested told t target (some first)).mono fun _ rest₄ taken₂ => ?_
      unfold Takes at *
      omega
    · refine .bind (.consumeMark told) fun _ rest₄ taken₂ => .pure ?_
      unfold Takes at *
      omega

theorem suffixes (told : flags.mode = mode) (fuel : Nat) (x : Expr) (ts : Tokens) :
    Mirrors flags ts (suffixes e fuel x) (Expr.suffixes p mode fuel x) (Keeps ts) := by
  induction fuel generalizing x ts with
  | zero => exact .exhausted
  | succ fuel ih =>
    refine .bind (.peek told) fun t rest peeked => ?_
    have keeps := peeked.keeps
    have stays : Mirrors flags rest (pure x) (pure x) (Keeps ts) := .pure keeps
    have goesOn : ∀ y rest', rest'.list.length ≤ rest.list.length →
        Mirrors flags rest' (Counting.suffixes e fuel y) (Expr.suffixes p mode fuel y) (Keeps ts) :=
      fun y rest' fewer => (ih y rest').mono fun _ _ kept => by
        unfold Keeps at *
        omega
    rcases t with ⟨l, place⟩
    cases l with
    | punct mark =>
      cases mark with
      | leftParen =>
        refine .bind (.enclosed (fun ts => nested _ ts flags.mode_bracketed) fuel) fun found rest₁ taken => ?_
        exact goesOn _ rest₁ (Nat.le_of_lt taken)
      | leftBracket =>
        exact .bind (subscript nested x) fun y rest₁ taken => goesOn y rest₁ (Nat.le_of_lt taken)
      | dot =>
        refine .bind (.next told peeked nofun) fun _ rest₁ taken => ?_
        refine .bind (.consumeName told) fun name rest₂ taken₁ => goesOn _ rest₂ ?_
        have := taken.2
        unfold Takes at taken₁
        omega
      | _ => exact stays
    | _ => exact stays

theorem operand (told : flags.mode = mode) (fuel : Nat) (ts : Tokens) :
    Mirrors flags ts (operand e fuel) (Expr.operand p mode fuel) (Takes ts) := by
  induction fuel generalizing ts with
  | zero => exact .exhausted
  | succ fuel ih =>
    refine .bind (.peek told) fun t rest peeked => ?_
    have keeps := peeked.keeps
    cases operator : unaryOp? t.lexeme with
    | some op =>
      have more : t.lexeme ≠ .eof := by
        intro eof
        rw [eof] at operator
        cases operator
      simp only
      refine .bind (.next told peeked more) fun _ rest₁ taken => ?_
      refine .bind (ih rest₁) fun x rest₂ taken₁ => .pure ?_
      have := taken.2
      unfold Takes at *
      omega
    | none =>
      simp only
      refine .bind (primary nested told (fuel + 1)) fun x rest₁ taken => ?_
      refine (suffixes nested told (fuel + 1) x rest₁).mono fun _ rest₂ kept => ?_
      unfold Takes Keeps at *
      omega

end Nested

theorem chain {right : CountingParser Expr} {right' : Parser Expr} (told : flags.mode = mode) (level : Nat)
    (operand : ∀ ts, Mirrors flags ts right right' (Takes ts)) (fuel : Nat) (x : Expr) (ts : Tokens) :
    Mirrors flags ts (chain right level fuel x) (Expr.chain right' mode level fuel x) (Keeps ts) := by
  induction fuel generalizing x ts with
  | zero => exact .exhausted
  | succ fuel ih =>
    refine .bind (.peek told) fun t rest peeked => ?_
    have keeps := peeked.keeps
    cases operator : binaryOp? t.lexeme with
    | some op =>
      have more : t.lexeme ≠ .eof := by
        intro eof
        rw [eof] at operator
        cases operator
      simp only
      split
      · refine .bind (.next told peeked more) fun _ rest₁ taken => ?_
        refine .bind (operand rest₁) fun y rest₂ taken₁ => ?_
        refine (ih _ rest₂).mono fun _ rest₃ kept => ?_
        have := taken.2
        unfold Takes Keeps at *
        omega
      · exact .pure keeps
    | none =>
      simp only
      exact .pure keeps

theorem operation (told : flags.mode = mode) (operand : ∀ ts, Mirrors flags ts e p (Takes ts)) (fuel count : Nat)
    (ts : Tokens) :
    Mirrors flags ts (operation e fuel count) (Expr.operation p mode fuel count) (Takes ts) := by
  induction count generalizing ts with
  | zero => exact operand ts
  | succ count ih =>
    refine .bind (ih ts) fun x rest taken => ?_
    refine (chain told _ ih fuel x rest).mono fun _ rest₁ kept => ?_
    unfold Takes Keeps at *
    omega

/-- An expression in the mode that the flags ask for. -/
theorem expression (told : flags.mode = mode) (fuel : Nat) (ts : Tokens) :
    Mirrors flags ts (expression fuel) (Expr.parse fuel mode) (Takes ts) := by
  induction fuel generalizing flags mode ts with
  | zero => exact .exhausted
  | succ fuel ih =>
    exact operation told (operand (fun _ ts inside => ih inside ts) told (fuel + 1)) (fuel + 1) _ ts

end Shiba.Counting.Mirrors

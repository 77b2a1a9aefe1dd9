import Shiba.Proofs.Stepwise.Verdict

/-!
# Newlines that make no difference

A newline does one of two things to a reading: it is skipped, or it ends a statement that can be over
(`Reading.lags_of_newline`).  In the second case the reading without the newline lags behind by that
statement (`Lags`), and catches up with the next token, unless the statement goes on with that token.  So
newlines behind which no statement would go on can be left out (`Reading.run_filter`).
-/

namespace Shiba.Stepwise

open Shiba.Stmt (endsAt)

/-- A token that is no newline. -/
def visible (t : Token) : Bool := t.lexeme ≠ .newline

/-- A newline that ends a statement which would go on without it, with the tokens behind it. -/
def Now.needsNewline (now : Now) (after : List Token) : Bool :=
  !now.skips && now.stmt?.isSome && (after.find? visible).any fun next => now.GoesOn next.lexeme

/-- Among some tokens a newline ends a statement that would go on without it. -/
def NeedsNewline (r : Reading) : List Token → Prop
  | [] => False
  | t :: list =>
    t.lexeme = .newline ∧ r.now.needsNewline list = true ∨
      match r.advance t with
      | .ok r' => NeedsNewline r' list
      | .error _ => False

instance decidableNeedsNewline : (r : Reading) → (list : List Token) → Decidable (NeedsNewline r list)
  | _, [] => inferInstanceAs (Decidable False)
  | r, t :: list =>
    have : Decidable (match r.advance t with | .ok r' => NeedsNewline r' list | .error _ => False) :=
      match r.advance t with
      | .ok r' => decidableNeedsNewline r' list
      | .error _ => inferInstanceAs (Decidable False)
    inferInstanceAs (Decidable (_ ∨ _))

/-- A reading without a newline is where the reading with the newline is, or it lags behind by the
statement that the newline has ended. -/
def Lags (q r : Reading) : Prop :=
  r = q ∨ q.now.skips = false ∧ ∃ s, q.now.stmt? = some s ∧ r = q.add s

variable {q r r' : Reading} {s : Stmt} {t : Token} {list : List Token} {p : Position}

theorem NeedsNewline.cons (step : r.advance t = .ok r') (needs : NeedsNewline r' list) :
    NeedsNewline r (t :: list) := by
  rw [NeedsNewline, step]
  exact .inr needs

theorem Now.needsNewline_append {now : Now} {after more : List Token}
    (needs : now.needsNewline after = true) : now.needsNewline (after ++ more) = true := by
  simp only [Now.needsNewline, Bool.and_eq_true] at needs ⊢
  refine ⟨needs.1, ?_⟩
  rw [List.find?_append]
  cases first : after.find? visible with
  | none =>
    rw [first] at needs
    cases needs.2
  | some next =>
    rw [first] at needs
    exact needs.2

/-- With more tokens behind them, tokens need the newlines that they need by themselves. -/
theorem NeedsNewline.append (needs : NeedsNewline r list) (more : List Token) :
    NeedsNewline r (list ++ more) := by
  induction list generalizing r with
  | nil => exact absurd needs id
  | cons t list ih =>
    rw [List.cons_append, NeedsNewline] at *
    refine needs.imp (And.imp_right Now.needsNewline_append) fun later => ?_
    cases step : r.advance t with
    | ok r' =>
      rw [step] at later
      exact ih later
    | error program =>
      rw [step] at later
      exact later

namespace Reading

/-- A newline is skipped, or it ends a statement. -/
theorem lags_of_newline (step : r.advance ⟨.newline, p⟩ = .ok r') : Lags r r' := by
  cases line : r.now.skips with
  | true =>
    simp only [advance, line, and_self, if_true] at step
    exact .inl (Except.ok.inj step).symm
  | false =>
    have offers : r.advance ⟨.newline, p⟩ = r.offer ⟨.newline, p⟩ := by simp [advance, line]
    rw [offers] at step
    cases finished : r.now.stmt? with
    | some s =>
      rw [offer_of_endsAt finished rfl] at step
      exact .inr ⟨line, s, finished, (Except.ok.inj step).symm⟩
    | none =>
      have start : r.now ≠ .start := fun start => by rw [start] at line; cases line
      have members : ∀ m, r.now ≠ .members m := fun m members => by rw [members] at line; cases line
      obtain ⟨failure, error⟩ := offer_of_stmt_none (t := ⟨.newline, p⟩) trivial finished start members
      rw [error] at step
      cases step

/-- A token that a statement does not go on with does the same behind the ended statement. -/
theorem advance_add (finished : r.now.stmt? = some s) (mark : t.lexeme ≠ .newline)
    (ends : ¬r.now.GoesOn t.lexeme) : r.advance t = (r.add s).advance t := by
  simp only [advance, mark, false_and, if_false]
  exact offer_of_not_goesOn finished ends

end Reading

/-- The end of input does the same to a reading that lags behind. -/
theorem Lags.advance_eof (lags : Lags q r) (p : Position) : q.advance ⟨.eof, p⟩ = r.advance ⟨.eof, p⟩ := by
  rcases lags with rfl | ⟨-, s, finished, rfl⟩
  · rfl
  · exact Reading.advance_add finished nofun (Now.not_goesOn_of_endsAt rfl)

/-- A reading that lags behind stays so without newlines that are not needed. -/
theorem Lags.reads (lags : Lags q r)
    (ahead : r = q ∨ ∀ next, list.find? visible = some next → ¬q.now.GoesOn next.lexeme)
    (unneeded : ¬NeedsNewline r list) (reads : r.reads list = .ok r') :
    ∃ q', q.reads (list.filter visible) = .ok q' ∧ Lags q' r' := by
  induction list generalizing q r with
  | nil =>
    cases reads
    exact ⟨q, rfl, lags⟩
  | cons t list ih =>
    cases step : r.advance t with
    | error program =>
      rw [Reading.reads, step] at reads
      cases reads
    | ok next =>
      rw [Reading.reads, step] at reads
      have unneeded' : ¬NeedsNewline next list := fun needs => unneeded (.cons step needs)
      by_cases line : t.lexeme = .newline
      · rcases t with ⟨_, p⟩
        cases line
        have behind : Lags q next ∧ (next = q ∨
            ∀ t, list.find? visible = some t → ¬q.now.GoesOn t.lexeme) := by
          rcases lags with rfl | ⟨line, s, finished, rfl⟩
          · have lags := Reading.lags_of_newline step
            refine ⟨lags, lags.imp_right ?_⟩
            rintro ⟨line, s, finished, rfl⟩ t first goes
            exact unneeded (.inl ⟨rfl, by simp [Now.needsNewline, line, finished, first, goes]⟩)
          · -- the statement has ended before
            cases step
            exact ⟨.inr ⟨line, s, finished, rfl⟩, ahead⟩
        exact ih behind.1 behind.2 unneeded' reads
      · have shown : visible t = true := decide_eq_true line
        have same : q.advance t = .ok next := by
          rw [← step]
          rcases lags with rfl | ⟨-, s, finished, rfl⟩
          · rfl
          · rcases ahead with same | ends
            · rw [same]
            · exact Reading.advance_add finished line (ends t (List.find?_cons_of_pos shown))
        rw [List.filter_cons_of_pos shown, Reading.reads, same]
        exact ih (.inl rfl) (.inl rfl) unneeded' reads

/-- Newlines that are not needed can be left out. -/
theorem Reading.run_filter (unneeded : ¬NeedsNewline r list) (reads : r.reads list = .ok r') :
    r.run ⟨list.filter visible, .complete p⟩ = r.run ⟨list, .complete p⟩ := by
  obtain ⟨q, reads', lags⟩ := Lags.reads (.inl rfl) (.inl rfl) unneeded reads
  have whole : r.run ⟨list, .complete p⟩ = r'.run ⟨[], .complete p⟩ := run_of_reads_ok reads
  calc r.run ⟨list.filter visible, .complete p⟩
      = q.run ⟨[], .complete p⟩ := run_of_reads_ok reads'
    _ = r'.run ⟨[], .complete p⟩ := by simp only [run, run.runFrom, lags.advance_eof p]
    _ = r.run ⟨list, .complete p⟩ := whole.symm

end Shiba.Stepwise

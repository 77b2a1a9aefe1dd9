import Shiba.Proofs.Counting.Parser
import Shiba.Proofs.Stepwise.Following

/-!
# Counting and being told

A parser that counts brackets does what a parser does that is told the mode: `Mirrors flags ts q p post`
says that on `ts`, with `flags` set, `q` answers what `p` answers and leaves what it leaves, of which `post`
holds, or fails as `p` fails; that behind it the flags are as before, in either case; and that all the calls
noted down on the way took tokens away and ended with nothing open (`Call.Sound`).

There is one rule for each step that parsers are made of, one for each way to change the flags for a while
(`Mirrors.within`), and those for items divided by commas between brackets.
-/

namespace Shiba.Counting

/-- The call took tokens away, and nothing was open behind it. -/
structure Call.Sound (call : Call) : Prop where
  fewer : call.after.list.length < call.before.list.length
  plain : call.flags = .plain

/-- The mode that the flags ask for. -/
def Flags.mode (flags : Flags) : Mode := ⟨decide (0 < flags.nesting), flags.header⟩

theorem Flags.mode_bracketed (flags : Flags) : flags.bracketed.mode = .bracketed := by
  simp [mode, bracketed, Mode.bracketed]

theorem Flags.mode_heading : Flags.plain.heading.mode = .heading := rfl

/-- What a parser answers, and the place it has come to. -/
def outcome {α : Type} (q : CountingParser α) (c : Cursor) : Except Source.Failure α × Cursor :=
  (StateT.run (ExceptT.run q) c).run

variable {α β : Type} {flags : Flags} {ts rest : Tokens} {t : Token} {q : CountingParser α} {p : Parser α}
  {post post' : α → Tokens → Prop}

theorem outcome_bind (q : CountingParser α) (f : α → CountingParser β) (c : Cursor) :
    outcome (q >>= f) c = match outcome q c with
      | (.ok a, c') => outcome (f a) c'
      | (.error failure, c') => (.error failure, c') := by
  unfold outcome ExceptT.run StateT.run Id.run
  simp only [bind, ExceptT.bind, ExceptT.mk, StateT.bind, ExceptT.bindCont]
  rcases q c with ⟨failure | a, c'⟩ <;> rfl

/-- On `ts`, with `flags` set, `q` does what `p` does, leaves the flags as they are, and makes sound calls
only. -/
def Mirrors (flags : Flags) (ts : Tokens) (q : CountingParser α) (p : Parser α)
    (post : α → Tokens → Prop) : Prop :=
  ∀ calls, ∃ new, (∀ call ∈ new, call.Sound) ∧
    ((∃ a rest, p.run ts = .ok (a, rest) ∧
        outcome q ⟨ts, flags, calls⟩ = (.ok a, ⟨rest, flags, calls ++ new⟩) ∧ post a rest) ∨
      ∃ failure rest, p.run ts = .error failure ∧
        outcome q ⟨ts, flags, calls⟩ = (.error failure, ⟨rest, flags, calls ++ new⟩))

/-- A parser that takes tokens away. -/
def Takes (ts : Tokens) : α → Tokens → Prop := fun _ rest => rest.list.length < ts.list.length

/-- A parser that puts no tokens back. -/
def Keeps (ts : Tokens) : α → Tokens → Prop := fun _ rest => rest.list.length ≤ ts.list.length

/-- A token that has been looked at, with the tokens that are left then. -/
structure Peeked (flags : Flags) (ts : Tokens) (t : Token) (rest : Tokens) : Prop where
  front : rest.front = .ok t
  passed : rest = ts.seen flags.mode

namespace Peeked

variable {t' : Token} {rest' : Tokens}

theorem keeps (peeked : Peeked flags ts t rest) : rest.list.length ≤ ts.list.length := by
  rw [peeked.passed]
  exact Tokens.length_seen_le _ _

/-- What is at the front and no newline is found with any flags. -/
theorem of_front (front : ts.front = .ok t) (other : t.lexeme ≠ .newline) : Peeked flags ts t ts :=
  ⟨front, (Tokens.seen_of_front front fun _ => other).symm⟩

/-- Looking again finds the same. -/
theorem again (peeked : Peeked flags ts t rest) (later : Peeked flags rest t' rest') :
    t' = t ∧ rest' = rest := by
  have seen : rest.seen flags.mode = rest := by
    have front : (ts.seen flags.mode).front = .ok t := by
      rw [← peeked.passed]
      exact peeked.front
    exact Tokens.seen_of_front peeked.front fun multiline => Tokens.front_seen_ne front multiline
  have same : rest' = rest := later.passed.trans seen
  have front := later.front
  rw [same, peeked.front] at front
  exact ⟨(Except.ok.inj front).symm, same⟩

end Peeked

namespace Mirrors

theorem mono_run (mirrors : Mirrors flags ts q p post)
    (weaker : ∀ a rest, p.run ts = .ok (a, rest) → post a rest → post' a rest) :
    Mirrors flags ts q p post' := by
  intro calls
  obtain ⟨new, sound, ⟨a, rest, told, run, holds⟩ | failed⟩ := mirrors calls
  · exact ⟨new, sound, .inl ⟨a, rest, told, run, weaker a rest told holds⟩⟩
  · exact ⟨new, sound, .inr failed⟩

theorem mono (mirrors : Mirrors flags ts q p post) (weaker : ∀ a rest, post a rest → post' a rest) :
    Mirrors flags ts q p post' :=
  mirrors.mono_run fun a rest _ => weaker a rest

/-- A parser that makes no calls. -/
theorem of_ok {a : α} (told : p.run ts = .ok (a, rest))
    (run : ∀ calls, outcome q ⟨ts, flags, calls⟩ = (.ok a, ⟨rest, flags, calls⟩)) (holds : post a rest) :
    Mirrors flags ts q p post :=
  fun calls => ⟨[], List.forall_mem_nil _, .inl ⟨a, rest, told, by rw [run, List.append_nil], holds⟩⟩

/-- A parser that fails and makes no calls. -/
theorem of_error {failure : Source.Failure} (told : p.run ts = .error failure)
    (run : ∀ calls, outcome q ⟨ts, flags, calls⟩ = (.error failure, ⟨rest, flags, calls⟩)) :
    Mirrors flags ts q p post :=
  fun calls => ⟨[], List.forall_mem_nil _, .inr ⟨failure, rest, told, by rw [run, List.append_nil]⟩⟩

protected theorem pure {a : α} (holds : post a ts) : Mirrors flags ts (pure a) (pure a) post :=
  of_ok rfl (fun _ => rfl) holds

protected theorem throw (failure : Source.Failure) :
    Mirrors flags ts (throw failure) (throw failure) post :=
  of_error rfl fun _ => rfl

protected theorem fail (fault : Source.Grammatical) (t : Token) :
    Mirrors flags ts (fail fault t) (Parser.fail fault t) post := .throw _

protected theorem bind {f : α → CountingParser β} {g : α → Parser β} {post : β → Tokens → Prop}
    (first : Mirrors flags ts q p post')
    (later : ∀ a rest, post' a rest → Mirrors flags rest (f a) (g a) post) :
    Mirrors flags ts (q >>= f) (p >>= g) post := by
  intro calls
  have told : (p >>= g).run ts = (p.run ts).bind fun found => (g found.1).run found.2 := by
    rw [StateT.run_bind]
    rfl
  rw [outcome_bind, told]
  obtain ⟨new, sound, ⟨a, rest, told, run, holds⟩ | ⟨failure, rest, told, run⟩⟩ := first calls
  · obtain ⟨new', sound', after⟩ := later a rest holds (calls ++ new)
    rw [List.append_assoc] at after
    rw [told, run]
    exact ⟨new ++ new', List.forall_mem_append.2 ⟨sound, sound'⟩, after⟩
  · rw [told, run]
    exact ⟨new, sound, .inr ⟨failure, rest, rfl, rfl⟩⟩

protected theorem map (f : α → β) {post : β → Tokens → Prop} (first : Mirrors flags ts q p post')
    (holds : ∀ a rest, post' a rest → post (f a) rest) : Mirrors flags ts (f <$> q) (f <$> p) post := by
  rw [← bind_pure_comp, ← bind_pure_comp]
  exact .bind first fun a rest here => .pure (holds a rest here)

protected theorem mark : Mirrors flags ts mark get fun place rest => place = ts ∧ rest = ts :=
  of_ok rfl (fun _ => rfl) ⟨rfl, rfl⟩

protected theorem inHeader? {f : Bool → CountingParser α} (later : Mirrors flags ts (f flags.header) p post) :
    Mirrors flags ts (inHeader? >>= f) p post := later

protected theorem reset (place : Tokens) :
    Mirrors flags ts (reset place) (set place) fun _ rest => rest = place :=
  of_ok rfl (fun _ => rfl) rfl

end Mirrors

/-! ## Taking tokens -/

theorem outcome_front (c : Cursor) : outcome front c = (c.tokens.front, c) := by
  rcases c with ⟨⟨- | ⟨t, list⟩, place | failure⟩, flags, calls⟩ <;> rfl

theorem outcome_peek (ts : Tokens) (flags : Flags) (calls : List Call) :
    outcome peek ⟨ts, flags, calls⟩ =
      ((ts.seen flags.mode).front, ⟨ts.seen flags.mode, flags, calls⟩) := by
  have look : outcome peek ⟨ts, flags, calls⟩ =
      outcome front ⟨if 0 < flags.nesting then ts.skipNewlines else ts, flags, calls⟩ := by
    unfold peek
    rw [outcome_bind]
    change outcome (if 0 < flags.nesting then dropNewlines >>= fun _ => front else front) _ = _
    split <;> rfl
  have seen : (if 0 < flags.nesting then ts.skipNewlines else ts) = ts.seen flags.mode := by
    simp [Tokens.seen, Flags.mode]
  rw [look, seen, outcome_front]

namespace Mirrors

variable {mode : Mode}

protected theorem peek (told : flags.mode = mode) :
    Mirrors flags ts peek (Parser.peek mode) (Peeked flags ts) := by
  have run := Parser.peek_run mode ts
  rw [← told] at run ⊢
  cases front : (ts.seen flags.mode).front with
  | ok t =>
    rw [front] at run
    exact of_ok run (fun calls => by rw [outcome_peek, front]) ⟨front, rfl⟩
  | error failure =>
    rw [front] at run
    exact of_error run fun calls => by rw [outcome_peek, front]

/-- Taking the token at the front, whatever it is. -/
theorem next_any (told : flags.mode = mode) : Mirrors flags ts next (Parser.next mode) fun t rest =>
    ∃ middle, Peeked flags ts t middle ∧ rest = middle.rest := by
  refine .bind (.peek told) fun t middle peeked => ?_
  exact of_ok rfl (fun _ => rfl) ⟨middle, peeked, rfl⟩

/-- Taking a token that has been looked at. -/
protected theorem next {ts₀ : Tokens} (told : flags.mode = mode) (peeked : Peeked flags ts₀ t ts)
    (more : t.lexeme ≠ .eof) : Mirrors flags ts next (Parser.next mode) fun t' rest =>
      t' = t ∧ rest.list.length < ts.list.length := by
  refine (next_any told).mono fun t' rest taken => ?_
  obtain ⟨middle, again, rfl⟩ := taken
  obtain ⟨rfl, rfl⟩ := peeked.again again
  exact ⟨rfl, Tokens.length_rest_lt peeked.front more⟩

protected theorem exhausted : Mirrors flags ts exhausted Parser.exhausted post := by
  have look : Mirrors flags ts front (Parser.peek .plain) fun _ _ => True := by
    have run := Parser.peek_run .plain ts
    cases front : ts.front with
    | ok t =>
      rw [show (ts.seen .plain).front = ts.front from rfl, front] at run
      exact of_ok run (fun calls => by rw [outcome_front, front]; rfl) trivial
    | error failure =>
      rw [show (ts.seen .plain).front = ts.front from rfl, front] at run
      exact of_error run fun calls => by rw [outcome_front, front]
  exact .bind look fun t rest _ => .fail _ t

protected theorem skipNewlines : Mirrors flags ts skipNewlines Parser.skipNewlines fun _ rest =>
    rest = ts.skipNewlines ∧ ∃ t, rest.front = .ok t := by
  have told : Parser.skipNewlines.run ts = ts.skipNewlines.front.map fun _ => ((), ts.skipNewlines) := by
    rcases same : ts.skipNewlines with ⟨- | ⟨t, list⟩, place | failure⟩ <;>
      simp [Parser.skipNewlines, same, Tokens.front, MonadExcept.ofExcept, Except.map] <;> rfl
  have run : ∀ calls, outcome skipNewlines ⟨ts, flags, calls⟩ =
      (ts.skipNewlines.front.map fun _ => (), ⟨ts.skipNewlines, flags, calls⟩) := by
    intro calls
    change outcome (front >>= fun _ => pure ()) ⟨ts.skipNewlines, flags, calls⟩ = _
    rw [outcome_bind, outcome_front]
    cases ts.skipNewlines.front <;> rfl
  cases front : ts.skipNewlines.front with
  | ok t =>
    rw [front] at told run
    exact of_ok told run ⟨rfl, t, front⟩
  | error failure =>
    rw [front] at told run
    exact of_error told run

/-- Looking at the first token that is no newline puts no tokens back. -/
theorem behindNewlines {f : Token → CountingParser β} {g : Token → Parser β} {post : β → Tokens → Prop}
    (told : flags.mode = mode)
    (later : ∀ t rest, Peeked flags ts.skipNewlines t rest → rest.list.length ≤ ts.list.length →
      Mirrors flags rest (f t) (g t) post) :
    Mirrors flags ts (do skipNewlines; let t ← peek; f t)
      (do Parser.skipNewlines; let t ← Parser.peek mode; g t) post := by
  refine .bind .skipNewlines fun _ rest skipped => ?_
  obtain ⟨rfl, -⟩ := skipped
  refine .bind (.peek told) fun t rest peeked => later t rest peeked ?_
  exact Nat.le_trans peeked.keeps Tokens.length_skipNewlines_le

protected theorem atLexeme {lexeme : Lexeme} (told : flags.mode = mode) :
    Mirrors flags ts (atLexeme lexeme) (Parser.atLexeme mode lexeme) fun found rest =>
      ∃ t, Peeked flags ts t rest ∧ found = decide (t.lexeme = lexeme) :=
  .bind (.peek told) fun t _ peeked => .pure ⟨t, peeked, rfl⟩

protected theorem consume {lexeme : Lexeme} (told : flags.mode = mode) (more : lexeme ≠ .eof) :
    Mirrors flags ts (consume lexeme) (Parser.consume mode lexeme) (Takes ts) := by
  refine .bind (.peek told) fun t rest peeked => ?_
  split
  · rename_i same
    refine (Mirrors.next told peeked (same ▸ more)).mono fun _ _ taken => ?_
    exact Nat.lt_of_lt_of_le taken.2 peeked.keeps
  · exact .fail _ _

protected theorem consumeMark {mark : Punctuator} (told : flags.mode = mode) :
    Mirrors flags ts (consumeMark mark) (Parser.consumeMark mode mark) (Takes ts) :=
  .consume told nofun

protected theorem consumeName (told : flags.mode = mode) :
    Mirrors flags ts consumeName (Parser.consumeName mode) (Takes ts) := by
  refine .bind (.peek told) fun t rest peeked => ?_
  rcases t with ⟨l, place⟩
  cases l with
  | ident name =>
    refine .bind (.next told peeked nofun) fun _ left taken => .pure ?_
    exact Nat.lt_of_lt_of_le taken.2 peeked.keeps
  | _ => exact .fail _ _

/-! ## Flags that hold for a while -/

protected theorem within {enter : Flags → Flags} {leave : Flags → Flags → Flags}
    (back : leave flags (enter flags) = flags) (inside : Mirrors (enter flags) ts q p post) :
    Mirrors flags ts (within enter leave q) p post := by
  have run : ∀ calls, outcome (within enter leave q) ⟨ts, flags, calls⟩ =
      ((outcome q ⟨ts, enter flags, calls⟩).1, { (outcome q ⟨ts, enter flags, calls⟩).2 with
        flags := leave flags (outcome q ⟨ts, enter flags, calls⟩).2.flags }) := fun _ => rfl
  intro calls
  obtain ⟨new, sound, ⟨a, rest, told, answer, holds⟩ | ⟨failure, rest, told, answer⟩⟩ := inside calls
  · exact ⟨new, sound, .inl ⟨a, rest, told, by rw [run, answer, back], holds⟩⟩
  · exact ⟨new, sound, .inr ⟨failure, rest, told, by rw [run, answer, back]⟩⟩

protected theorem nested (inside : Mirrors flags.bracketed ts q p post) :
    Mirrors flags ts (nested q) p post := .within rfl inside

protected theorem inHeader (inside : Mirrors flags.heading ts q p post) :
    Mirrors flags ts (inHeader q) p post := .within rfl inside

protected theorem inBlock (inside : Mirrors .plain ts q p post) : Mirrors flags ts (inBlock q) p post :=
  .within rfl inside

/-! ## Items between brackets -/

theorem separated {close : Punctuator} (told : flags.mode = .bracketed)
    (item : ∀ ts, Mirrors flags ts q p (Takes ts)) (fuel : Nat) (ts : Tokens) :
    Mirrors flags ts (separated q close fuel) (Parser.separated p close fuel) (Keeps ts) := by
  induction fuel generalizing ts with
  | zero => exact .exhausted
  | succ fuel ih =>
    refine .bind (.atLexeme told) fun found rest peeked => ?_
    obtain ⟨t, peeked, -⟩ := peeked
    have keeps := peeked.keeps
    split
    · exact .pure keeps
    refine .bind (item rest) fun x rest₁ taken => ?_
    refine .bind (.atLexeme told) fun found rest₂ peeked₁ => ?_
    obtain ⟨t₁, peeked₁, rfl⟩ := peeked₁
    have keeps₁ := peeked₁.keeps
    have fewer : rest₂.list.length < ts.list.length := by
      unfold Takes at taken
      omega
    split
    · rename_i comma
      refine .bind (.next told peeked₁ (by simp [of_decide_eq_true comma])) fun _ rest₃ taken₁ => ?_
      refine .bind (ih rest₃) fun xs rest₄ kept => .pure ?_
      have := taken₁.2
      unfold Keeps at kept ⊢
      omega
    · exact .pure (Nat.le_of_lt fewer)

theorem enclosed {opening close : Punctuator} (item : ∀ ts, Mirrors flags.bracketed ts q p (Takes ts))
    (fuel : Nat) : Mirrors flags ts (enclosed q opening close fuel) (Parser.enclosed p opening close fuel)
      (Takes ts) := by
  have told := flags.mode_bracketed
  refine .nested (.bind (.consumeMark told) fun t rest taken => ?_)
  refine .bind (separated told item fuel rest) fun xs rest₁ kept => ?_
  refine .bind (.consumeMark told) fun _ rest₂ taken₁ => .pure ?_
  unfold Takes Keeps at *
  omega

end Mirrors

end Shiba.Counting

import Shiba.Proofs.Stepwise.Reading

/-!
# Following a parser

A parser and a reading take the same tokens, the parser many at a time.  `At whole r now ts` says that
the reading `r` has come to `now` with `ts` left, on the way to the program `whole`, and
`Follows whole r p ts post` that the parser `p` does the same on `ts`: either it answers, and `post`
holds of the answer and of what is left, or it fails, and then `whole` is what was complete before
with that failure behind it.

There is one rule for each step that parsers are made of, one for each thing a token can do to a
reading, and `Items.follows_enclosed` for items divided by commas between brackets.
-/

namespace Shiba

/-! ## The front of a sequence -/

namespace Tokens

variable {ts : Tokens} {t : Token}

/-- A token that can be taken is the first of the list. -/
theorem eq_cons_of_front (front : ts.front = .ok t) (more : t.lexeme ≠ .eof) :
    ts = ⟨t :: ts.rest.list, ts.rest.ending⟩ := by
  rcases ts with ⟨- | ⟨t', list⟩, ending⟩
  · cases ending with
    | complete p =>
      cases front
      exact absurd rfl more
    | failed failure => cases front
  · cases front
    rfl

theorem length_rest_lt (front : ts.front = .ok t) (more : t.lexeme ≠ .eof) :
    ts.rest.list.length < ts.list.length := by
  have := congrArg (·.list.length) (eq_cons_of_front front more)
  simp only [List.length_cons] at this
  omega

theorem length_skipNewlines_le : ts.skipNewlines.list.length ≤ ts.list.length :=
  (List.dropWhile_sublist _).length_le

/-- The sequence as a parser looks at it in a mode. -/
def seen (mode : Mode) (ts : Tokens) : Tokens := if mode.multiline then ts.skipNewlines else ts

theorem length_seen_le (mode : Mode) (ts : Tokens) :
    (ts.seen mode).list.length ≤ ts.list.length := by
  unfold seen
  split
  · exact length_skipNewlines_le
  · exact Nat.le_refl _

/-- No newline is seen where newlines are skipped. -/
theorem front_skipNewlines_ne (front : ts.skipNewlines.front = .ok t) : t.lexeme ≠ .newline := by
  rcases ts with ⟨list, ending⟩
  have first := List.head?_dropWhile_not (fun t : Token => decide (t.lexeme = .newline)) list
  cases left : list.dropWhile fun t : Token => decide (t.lexeme = .newline) with
  | nil =>
    simp only [skipNewlines, left] at front
    cases ending <;> cases front
    nofun
  | cons t' list' =>
    simp only [skipNewlines, left] at front
    cases front
    simpa [left] using first

theorem front_seen_ne {mode : Mode} (front : (ts.seen mode).front = .ok t)
    (multiline : mode.multiline = true) : t.lexeme ≠ .newline := by
  rw [seen, if_pos multiline] at front
  exact front_skipNewlines_ne front

/-- A sequence that does not start with a skipped newline is seen as it is. -/
theorem seen_of_front {mode : Mode} (front : ts.front = .ok t)
    (settled : mode.multiline = true → t.lexeme ≠ .newline) : ts.seen mode = ts := by
  unfold seen
  split
  · rename_i multiline
    rcases ts with ⟨- | ⟨t', list⟩, ending⟩
    · rfl
    · cases front
      simp [skipNewlines, settled multiline]
  · rfl

end Tokens

/-- What looking at the front does. -/
theorem Parser.peek_run (mode : Mode) (ts : Tokens) :
    (Parser.peek mode).run ts = (ts.seen mode).front.map fun t => (t, ts.seen mode) := by
  have look : ∀ ts : Tokens,
      (do MonadExcept.ofExcept (← get).front : Parser Token).run ts = ts.front.map fun t => (t, ts) := by
    intro ts
    cases front : ts.front with
    | ok t => simp [StateT.run_bind, front, MonadExcept.ofExcept, Except.map]; rfl
    | error failure => simp [StateT.run_bind, front, MonadExcept.ofExcept, Except.map]; rfl
  unfold Parser.peek Tokens.seen
  cases mode.multiline with
  | true => exact look ts.skipNewlines
  | false => exact look ts

namespace Stepwise

/-! ## Where a reading stands -/

namespace Reading

variable {r r' : Reading} {ts : Tokens} {t : Token} {now : Now}

theorem advance_of_ne (other : t.lexeme = .newline → r.now.skips = false) :
    r.advance t = r.offer t := by
  unfold advance
  split
  · rename_i skipped
    simp_all
  · rfl

theorem advance_newline (newline : t.lexeme = .newline) (skips : r.now.skips = true) :
    r.advance t = .ok r := if_pos ⟨newline, skips⟩

theorem run_of_front_error {failure : Source.Failure} (front : ts.front = .error failure) :
    r.run ts = ⟨r.done, .failed failure⟩ := by
  rcases ts with ⟨- | ⟨t, list⟩, ending⟩
  · cases ending <;> cases front
    rfl
  · cases front

theorem run_of_advance_ok (front : ts.front = .ok t) (more : t.lexeme ≠ .eof)
    (advance : r.advance t = .ok r') : r.run ts = r'.run ts.rest := by
  rw [Tokens.eq_cons_of_front front more]
  simp only [run, run.runFrom, advance]
  rfl

theorem run_of_advance_error {program : Program} (front : ts.front = .ok t)
    (advance : r.advance t = .error program) : r.run ts = program := by
  rcases ts with ⟨- | ⟨t', list⟩, ending⟩
  · cases ending <;> cases front
    simp only [run, run.runFrom, advance]
  · cases front
    simp only [run, run.runFrom, advance]

theorem run_congr (front : ts.front = .ok t) (advance : r.advance t = r'.advance t) :
    r.run ts = r'.run ts := by
  rcases ts with ⟨- | ⟨t', list⟩, ending⟩
  · cases ending <;> cases front
    simp only [run, run.runFrom, advance]
  · cases front
    simp only [run, run.runFrom, advance]

/-- Where newlines are skipped, those at the front make no difference. -/
theorem run_skipNewlines (skips : r.now.skips = true) : r.run ts.skipNewlines = r.run ts := by
  rcases ts with ⟨list, ending⟩
  simp only [run, Tokens.skipNewlines]
  induction list with
  | nil => rfl
  | cons t list ih =>
    rw [List.dropWhile_cons]
    split
    · rename_i newline
      simp only [decide_eq_true_eq] at newline
      rw [ih, run.runFrom, advance_newline newline skips]
    · rfl

end Reading

variable {α β : Type} {whole : Program} {r : Reading} {now now' : Now} {p : Parser α} {ts : Tokens}
  {t : Token} {post post' : α → Tokens → Prop} {mode : Mode}

/-- A reading has come to `now` with `ts` left, and makes the program `whole` of it. -/
def At (whole : Program) (r : Reading) (now : Now) (ts : Tokens) : Prop :=
  ({ r with now } : Reading).run ts = whole

/-- Of the tokens `ts` some have been taken, and the reading has come to `now` with `rest` left. -/
structure Past (whole : Program) (r : Reading) (ts : Tokens) (now : Now) (rest : Tokens) : Prop where
  fewer : rest.list.length < ts.list.length
  stands : At whole r now rest

/-- The token `t` is at the front, and the reading does not skip it. -/
structure Meets (now : Now) (ts : Tokens) (t : Token) : Prop where
  front : ts.front = .ok t
  settled : t.lexeme = .newline → now.skips = false

theorem Meets.visible (meets : Meets now ts t) (skips : mode.multiline = true → now.skips = true)
    (multiline : mode.multiline = true) : t.lexeme ≠ .newline := by
  intro newline
  rw [meets.settled newline] at skips
  cases skips multiline

theorem Meets.seen (meets : Meets now ts t) (skips : mode.multiline = true → now.skips = true) :
    ts.seen mode = ts :=
  Tokens.seen_of_front meets.front (meets.visible skips)

theorem Past.trans {middle rest : Tokens} (first : Past whole r ts now middle)
    (second : Past whole r middle now' rest) : Past whole r ts now' rest :=
  ⟨Nat.lt_trans second.fewer first.fewer, second.stands⟩

namespace At

theorem skipNewlines (stands : At whole r now ts) (skips : now.skips = true) :
    At whole r now ts.skipNewlines :=
  (Reading.run_skipNewlines skips).trans stands

/-- A token takes the reading further. -/
theorem take (stands : At whole r now ts) (meets : Meets now ts t) (more : t.lexeme ≠ .eof)
    (offer : ({ r with now } : Reading).offer t = r.go now') : Past whole r ts now' ts.rest := by
  have advance := (Reading.advance_of_ne (r := { r with now }) meets.settled).trans offer
  exact ⟨Tokens.length_rest_lt meets.front more,
    (Reading.run_of_advance_ok meets.front more advance).symm.trans stands⟩

/-- A token makes no difference between two places. -/
theorem congr (stands : At whole r now ts) (meets : Meets now ts t)
    (settled : t.lexeme = .newline → now'.skips = false)
    (offer : ({ r with now } : Reading).offer t = ({ r with now := now' } : Reading).offer t) :
    At whole r now' ts := by
  refine (Reading.run_congr meets.front ?_).symm.trans stands
  rw [Reading.advance_of_ne meets.settled, Reading.advance_of_ne settled, offer]

/-- A token that cannot stand where it does stops the reading. -/
theorem stop {program : Program} (stands : At whole r now ts) (meets : Meets now ts t)
    (offer : ({ r with now } : Reading).offer t = .error program) : whole = program := by
  have advance := (Reading.advance_of_ne (r := { r with now }) meets.settled).trans offer
  exact stands.symm.trans (Reading.run_of_advance_error meets.front advance)

end At

/-! ## Following -/

/-- On `ts` a parser answers something of which, with what is left, `post` holds, or it fails, and the
program `whole` ends with its failure. -/
def Follows (whole : Program) (r : Reading) (p : Parser α) (ts : Tokens)
    (post : α → Tokens → Prop) : Prop :=
  match p.run ts with
  | .ok (x, rest) => post x rest
  | .error failure => whole = ⟨r.done, .failed failure⟩

namespace Follows

theorem pure {x : α} (holds : post x ts) : Follows whole r (pure x) ts post := holds

theorem bind {f : α → Parser β} {post : β → Tokens → Prop}
    (follows : Follows whole r p ts fun x rest => Follows whole r (f x) rest post) :
    Follows whole r (p >>= f) ts post := by
  unfold Follows at *
  rw [StateT.run_bind]
  cases result : p.run ts with
  | error failure => rw [result] at follows; exact follows
  | ok answer => rw [result] at follows; exact follows

theorem mono (follows : Follows whole r p ts post) (weaker : ∀ x rest, post x rest → post' x rest) :
    Follows whole r p ts post' := by
  unfold Follows at *
  split at follows
  · exact weaker _ _ follows
  · exact follows

/-- A parser that is followed by another one. -/
theorem andThen {f : α → Parser β} {post : β → Tokens → Prop} (first : Follows whole r p ts post')
    (second : ∀ x rest, post' x rest → Follows whole r (f x) rest post) :
    Follows whole r (p >>= f) ts post :=
  bind (first.mono second)

/-- Looking at the front, where newlines are skipped if the reading skips them. -/
theorem peek_seen {post : Token → Tokens → Prop} (stands : At whole r now ts)
    (skips : now.skips = mode.multiline)
    (goesOn : ∀ t, Meets now (ts.seen mode) t → At whole r now (ts.seen mode) →
      post t (ts.seen mode)) :
    Follows whole r (Parser.peek mode) ts post := by
  have seen : At whole r now (ts.seen mode) := by
    unfold Tokens.seen
    split
    · rename_i multiline
      exact stands.skipNewlines (skips.trans multiline)
    · exact stands
  unfold Follows
  rw [Parser.peek_run]
  cases front : (ts.seen mode).front with
  | ok t =>
    refine goesOn t ⟨front, fun newline => ?_⟩ seen
    rw [skips, ← Bool.not_eq_true]
    exact fun multiline => Tokens.front_seen_ne front multiline newline
  | error failure => exact seen.symm.trans (Reading.run_of_front_error front)

theorem peek {post : Token → Tokens → Prop} (stands : At whole r now ts)
    (skips : now.skips = mode.multiline)
    (goesOn : ∀ t ts', ts'.list.length ≤ ts.list.length → Meets now ts' t → At whole r now ts' →
      post t ts') :
    Follows whole r (Parser.peek mode) ts post :=
  peek_seen stands skips fun t => goesOn t _ (Tokens.length_seen_le mode ts)

/-- Where newlines are tokens of their own, any token may be at the front. -/
theorem settled_plain : Mode.plain.multiline = true → t.lexeme ≠ .newline := nofun

/-- Looking at a token that is known to be at the front. -/
theorem peek_known {post : Token → Tokens → Prop} (front : ts.front = .ok t)
    (settled : mode.multiline = true → t.lexeme ≠ .newline) (holds : post t ts) :
    Follows whole r (Parser.peek mode) ts post := by
  unfold Follows
  rw [Parser.peek_run, Tokens.seen_of_front front settled, front]
  exact holds

/-- Taking a token that is known to be at the front. -/
theorem next_known {post : Token → Tokens → Prop} (front : ts.front = .ok t)
    (settled : mode.multiline = true → t.lexeme ≠ .newline) (holds : post t ts.rest) :
    Follows whole r (Parser.next mode) ts post :=
  bind (peek_known front settled holds)

theorem atLexeme_known {post : Bool → Tokens → Prop} {lexeme : Lexeme} (front : ts.front = .ok t)
    (settled : mode.multiline = true → t.lexeme ≠ .newline) (holds : post (t.lexeme = lexeme) ts) :
    Follows whole r (Parser.atLexeme mode lexeme) ts post :=
  bind (peek_known front settled holds)

theorem atLexeme {post : Bool → Tokens → Prop} {lexeme : Lexeme} (stands : At whole r now ts)
    (skips : now.skips = mode.multiline)
    (goesOn : ∀ t ts', ts'.list.length ≤ ts.list.length → Meets now ts' t → At whole r now ts' →
      post (t.lexeme = lexeme) ts') :
    Follows whole r (Parser.atLexeme mode lexeme) ts post :=
  bind (peek stands skips goesOn)

theorem atLexeme_seen {post : Bool → Tokens → Prop} {lexeme : Lexeme} (stands : At whole r now ts)
    (skips : now.skips = mode.multiline)
    (goesOn : ∀ t, Meets now (ts.seen mode) t → At whole r now (ts.seen mode) →
      post (t.lexeme = lexeme) (ts.seen mode)) :
    Follows whole r (Parser.atLexeme mode lexeme) ts post :=
  bind (peek_seen stands skips goesOn)

theorem get {post : Tokens → Tokens → Prop} (holds : post ts ts) : Follows whole r get ts post := holds

theorem set {ts' : Tokens} {post : PUnit → Tokens → Prop} (holds : post ⟨⟩ ts') :
    Follows whole r (set ts') ts post := holds

theorem fail {fault : Source.Grammatical}
    (stops : whole = ⟨r.done, .failed ⟨.grammatical fault, t.position⟩⟩) :
    Follows whole r (Parser.fail fault t : Parser α) ts post := stops

theorem consume_known {post : Token → Tokens → Prop} {lexeme : Lexeme} (front : ts.front = .ok t)
    (same : t.lexeme = lexeme) (other : lexeme ≠ .newline) (holds : post t ts.rest) :
    Follows whole r (Parser.consume mode lexeme) ts post := by
  have settled : mode.multiline = true → t.lexeme ≠ .newline := fun _ => same ▸ other
  refine bind (peek_known front settled ?_)
  rw [if_pos same]
  exact next_known front settled holds

/-- Taking a token that has to come: the reading stops at any other. -/
theorem consume {post : Token → Tokens → Prop} {lexeme : Lexeme} (stands : At whole r now ts)
    (skips : now.skips = mode.multiline) (other : lexeme ≠ .newline)
    (wrong : ∀ t, t.lexeme ≠ lexeme → ({ r with now } : Reading).offer t =
      r.fail (.expected lexeme.className t.lexeme) t.position)
    (goesOn : ∀ t ts', ts'.list.length ≤ ts.list.length → t.lexeme = lexeme → Meets now ts' t →
      At whole r now ts' → post t ts'.rest) :
    Follows whole r (Parser.consume mode lexeme) ts post := by
  refine bind (peek stands skips fun t ts' shorter meets stands' => ?_)
  split
  · rename_i same
    exact next_known meets.front (fun _ => same ▸ other) (goesOn t ts' shorter same meets stands')
  · rename_i differs
    exact fail (stands'.stop meets (wrong t differs))

/-- Taking a name that has to come. -/
theorem consumeName {post : Ident → Tokens → Prop} (stands : At whole r now ts)
    (skips : now.skips = mode.multiline)
    (wrong : ∀ t, (ts.seen mode).front = .ok t → (∀ name, t.lexeme ≠ .ident name) →
      ({ r with now } : Reading).offer t = r.fail (.expected "IDENT" t.lexeme) t.position)
    (goesOn : ∀ t ts' name, ts'.list.length ≤ ts.list.length → t.lexeme = .ident name →
      Meets now ts' t → At whole r now ts' → post ⟨t.position, name⟩ ts'.rest) :
    Follows whole r (Parser.consumeName mode) ts post := by
  refine bind (peek_seen stands skips fun t meets stands' => ?_)
  split
  · rename_i name same
    refine bind (next_known meets.front (fun _ => by rw [same]; nofun) ?_)
    exact pure (goesOn t _ name (Tokens.length_seen_le mode ts) same meets stands')
  · rename_i differs
    exact fail (stands'.stop meets (wrong t meets.front differs))

/-- Skipping newlines, where the reading skips them too. -/
theorem skipNewlines {post : Unit → Tokens → Prop} (stands : At whole r now ts)
    (skips : now.skips = true)
    (goesOn : ∀ t ts', ts' = ts.skipNewlines → ts'.list.length ≤ ts.list.length →
      ts'.front = .ok t → t.lexeme ≠ .newline → At whole r now ts' → post () ts') :
    Follows whole r Parser.skipNewlines ts post := by
  have seen := stands.skipNewlines skips
  cases front : ts.skipNewlines.front with
  | ok t =>
    have answer : Parser.skipNewlines.run ts = .ok ((), ts.skipNewlines) := by
      simp only [Parser.skipNewlines, StateT.run_bind]
      change (((MonadExcept.ofExcept ts.skipNewlines.front : Parser Token).run ts.skipNewlines) >>= _) = _
      rw [front]
      rfl
    unfold Follows
    rw [answer]
    exact goesOn t _ rfl Tokens.length_skipNewlines_le front (Tokens.front_skipNewlines_ne front) seen
  | error failure =>
    have answer : Parser.skipNewlines.run ts = .error failure := by
      simp only [Parser.skipNewlines, StateT.run_bind]
      change (((MonadExcept.ofExcept ts.skipNewlines.front : Parser Token).run ts.skipNewlines) >>= _) = _
      rw [front]
      rfl
    unfold Follows
    rw [answer]
    exact seen.symm.trans (Reading.run_of_front_error front)

end Follows

/-! ## Items between brackets -/

/-- How a reading takes items divided by commas up to a closing bracket: `item before` is where the
next item or the bracket has to come, `behind before x` where it is behind an item. -/
structure Items (whole : Program) (r : Reading) (p : Parser α) (close : Punctuator) (bound : Nat)
    (item : List α → Now) (behind : List α → α → Now) (closed : List α → Now) : Prop where
  item_skips : ∀ before, (item before).skips = true
  behind_skips : ∀ before x, (behind before x).skips = true
  end_item : ∀ before t, t.lexeme = .punct close →
    ({ r with now := item before } : Reading).offer t = r.go (closed before)
  follows : ∀ before t ts, ts.list.length < bound → Meets (item before) ts t →
    t.lexeme ≠ .punct close → At whole r (item before) ts →
    Follows whole r p ts fun x rest => Past whole r ts (behind before x) rest ∧
      ∀ t, (rest.seen .bracketed).front = .ok t → t.lexeme ≠ .punct .comma →
        t.lexeme ≠ .punct close → ({ r with now := behind before x } : Reading).offer t =
          r.fail (.expected close.text t.lexeme) t.position
  comma : ∀ before x t, t.lexeme = .punct .comma →
    ({ r with now := behind before x } : Reading).offer t = r.go (item (before ++ [x]))
  end_behind : ∀ before x t, t.lexeme = .punct close →
    ({ r with now := behind before x } : Reading).offer t = r.go (closed (before ++ [x]))

/-- The closing bracket has to come, behind which the reading goes on with `closed`. -/
structure Closing (whole : Program) (r : Reading) (close : Punctuator) (closed : Now)
    (ts : Tokens) : Prop where
  at_front : ∃ now t, At whole r now ts ∧ Meets now ts t ∧ now.skips = true ∧
    (t.lexeme = .punct close → ({ r with now } : Reading).offer t = r.go closed) ∧
    (t.lexeme ≠ .punct close → ({ r with now } : Reading).offer t =
      r.fail (.expected close.text t.lexeme) t.position)

theorem Closing.follows {close : Punctuator} {closed : Now} {post : Token → Tokens → Prop}
    (closing : Closing whole r close closed ts)
    (goesOn : ∀ t rest, Past whole r ts closed rest → post t rest) :
    Follows whole r (Parser.consumeMark .bracketed close) ts post := by
  obtain ⟨now, t, stands, meets, skips, ends, wrong⟩ := closing.at_front
  have settled : Mode.bracketed.multiline = true → t.lexeme ≠ .newline := meets.visible fun _ => skips
  refine Follows.bind (Follows.peek_known meets.front settled ?_)
  split
  · rename_i same
    refine Follows.next_known meets.front settled (goesOn t _ ?_)
    exact stands.take meets (by rw [same]; nofun) (ends same)
  · rename_i differs
    exact Follows.fail (stands.stop meets (wrong differs))

namespace Items

variable {close : Punctuator} {bound : Nat} {item : List α → Now} {behind : List α → α → Now}
  {closed : List α → Now}

/-- Items up to their closing bracket, which has to come then. -/
theorem follows_separated (items : Items whole r p close bound item behind closed)
    {before : List α} (fuel : Nat) (enough : ts.list.length < fuel) (deep : ts.list.length < bound)
    (stands : At whole r (item before) ts) :
    Follows whole r (Parser.separated p close fuel) ts fun xs rest =>
      rest.list.length ≤ ts.list.length ∧ Closing whole r close (closed (before ++ xs)) rest := by
  induction fuel generalizing ts before with
  | zero => omega
  | succ fuel ih =>
    refine Follows.bind (Follows.atLexeme stands (items.item_skips before)
      fun t ts₁ shorter₁ meets₁ stands₁ => ?_)
    by_cases ends : t.lexeme = .punct close
    · rw [if_pos (decide_eq_true ends)]
      refine Follows.pure ⟨shorter₁, ⟨item before, t, stands₁, meets₁, items.item_skips before, ?_,
        fun differs => absurd ends differs⟩⟩
      simpa using items.end_item before t
    rw [if_neg (by simpa using ends)]
    refine Follows.andThen (items.follows before t ts₁ (by omega) meets₁ ends stands₁)
      fun x ts₂ ⟨past₁, wrong⟩ => ?_
    have fewer₁ := past₁.fewer
    have shorter₂ := Tokens.length_seen_le .bracketed ts₂
    refine Follows.bind (Follows.atLexeme_seen past₁.stands (items.behind_skips before x)
      fun t' meets₂ stands₂ => ?_)
    by_cases comma : t'.lexeme = .punct .comma
    · rw [if_pos (decide_eq_true comma)]
      refine Follows.bind (Follows.next_known meets₂.front (fun _ => by rw [comma]; nofun) ?_)
      have past₂ := stands₂.take meets₂ (by rw [comma]; nofun) (items.comma before x t' comma)
      have fewer₂ := past₂.fewer
      refine Follows.andThen (ih (by omega) (by omega) past₂.stands) fun xs rest left => ?_
      refine Follows.pure ⟨by omega, ?_⟩
      simpa using left.2
    · rw [if_neg (by simpa using comma)]
      exact Follows.pure ⟨by omega, ⟨behind before x, t', stands₂, meets₂, items.behind_skips before x,
        items.end_behind before x t', wrong t' meets₂.front comma⟩⟩

/-- Items up to their closing bracket, which is taken. -/
theorem follows_closed (items : Items whole r p close bound item behind closed) {opening : Token}
    {fuel : Nat} {post : Token × List α → Tokens → Prop} (enough : ts.list.length < fuel)
    (deep : ts.list.length < bound) (stands : At whole r (item []) ts)
    (goesOn : ∀ xs rest, rest.list.length < ts.list.length → At whole r (closed xs) rest →
      post (opening, xs) rest) :
    Follows whole r (do
        let xs ← Parser.separated p close fuel
        let _ ← Parser.consumeMark .bracketed close
        return (opening, xs)) ts post := by
  refine Follows.andThen (items.follows_separated fuel enough deep stands) fun xs rest closing => ?_
  refine Follows.bind (closing.2.follows fun _ rest' past => ?_)
  have fewer := past.fewer
  exact Follows.pure (goesOn xs rest' (by omega) past.stands)

/-- Items between brackets, the opening one at the front. -/
theorem follows_enclosed (items : Items whole r p close bound item behind closed)
    {opening : Punctuator} {fuel : Nat} {post : Token × List α → Tokens → Prop}
    (enough : ts.list.length ≤ fuel) (deep : ts.list.length ≤ bound) (front : ts.front = .ok t)
    (opens : t.lexeme = .punct opening) (past : Past whole r ts (item []) ts.rest)
    (goesOn : ∀ xs rest, Past whole r ts (closed xs) rest → post (t, xs) rest) :
    Follows whole r (Parser.enclosed p opening close fuel) ts post := by
  have fewer := past.fewer
  refine Follows.bind (Follows.consume_known front opens nofun ?_)
  exact items.follows_closed (by omega) (by omega) past.stands fun xs rest fewer' stands =>
    goesOn xs rest ⟨by omega, stands⟩

end Items

end Stepwise

end Shiba

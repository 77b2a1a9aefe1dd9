import Shiba.Program
import Shiba.Proofs.Blame.Basic
import Shiba.Proofs.TokenTiling

/-!
# Places come from the text

A reader only ever moves its place forward by the characters it passes, so every token and every fault has
the place of what follows it in the text.  A parser makes up no places: what it reports, and what the code
it makes will report, is the place of some token.

* `Position.LiesIn` says that the offset of a place is inside a text, and that its line and column are those
  of the offset.
* `Tokens.lie_ofText`: the tokens of a text lie in it.
* `Parser.Makes` says that a parser of tokens that lie somewhere makes code that lies there, or fails there.
* `Program.within_ofText`: the statements of a text lie in it, and so does the failure it ends with.
-/

namespace Shiba

/-! ## Reading -/

/-- The place is one of the text: its offset is not behind the end, and its line and column are those of
its offset. -/
structure Position.LiesIn (content : String) (p : Position) : Prop where
  offset : p.offset ≤ content.length
  exact : p.Exact (content.toList.take p.offset)

/-- The place in a text before which all but `rest` has been passed. -/
def Position.Before (content : String) (rest : List Char) (p : Position) : Prop :=
  ∃ passed, content.toList = passed ++ rest ∧ p = start.afterAll passed

namespace Position.Before

variable {content : String} {p : Position} {c : Char} {cs ds : List Char}

theorem liesIn (here : p.Before content cs) : p.LiesIn content := by
  obtain ⟨passed, whole, rfl⟩ := here
  have size : (start.afterAll passed).offset = passed.length := (exact_afterAll passed).offset
  refine ⟨?_, ?_⟩
  · rw [size, ← String.length_toList, whole, List.length_append]
    exact Nat.le_add_right _ _
  · rw [size, whole, List.take_left]
    exact exact_afterAll passed

theorem afterAll (here : p.Before content (cs ++ ds)) : (p.afterAll cs).Before content ds := by
  obtain ⟨passed, whole, rfl⟩ := here
  exact ⟨passed ++ cs, by rw [whole, List.append_assoc], (afterAll_append _ _ _).symm⟩

theorem after (here : p.Before content (c :: cs)) : (p.after c).Before content cs := by
  have whole : p.Before content ([c] ++ cs) := here
  exact whole.afterAll

end Position.Before

namespace Reader

variable {content : String}

/-- What was read from a text: the reader that is left stands in the text, and so does a fault. -/
def StaysIn {α : Type} (content : String) (answer : Answer α) : Prop :=
  answer.2.position.Before content answer.2.rest ∧
    ∀ failure, answer.1 = .error failure → failure.position.LiesIn content

theorem staysIn_map {α β : Type} {answer : Answer α} {f : α → β} (stays : StaysIn content answer) :
    StaysIn content (answer.1.map f, answer.2) := by
  refine ⟨stays.1, ?_⟩
  intro failure failed
  rcases answer with ⟨failure' | x, left⟩
  · cases failed
    exact stays.2 failure rfl
  · cases failed

/-- Reading without a fault. -/
theorem staysIn_ok {α : Type} {x : α} {left : Reader} (here : left.position.Before content left.rest) :
    StaysIn content (.ok x, left) :=
  ⟨here, fun _ failed => by cases failed⟩

theorem staysIn_error {α : Type} {failure : Source.Failure} {left : Reader}
    (here : left.position.Before content left.rest) (lies : failure.position.LiesIn content) :
    StaysIn content ((.error failure, left) : Answer α) :=
  ⟨here, fun _ failed => by cases failed; exact lies⟩

theorem staysIn_readString {opening p : Position} {cs done : List Char}
    (lies : opening.LiesIn content) (here : p.Before content cs) :
    StaysIn content (readString opening cs p done) := by
  fun_induction readString opening cs p done with
  | case1 p done => exact staysIn_error here lies
  | case2 cs p done => exact staysIn_ok here.after
  | case3 p done => exact staysIn_error here.after lies
  | case4 e cs p done c found ih => exact ih here.after.after
  | case5 e cs p done none => exact staysIn_error here.after here.liesIn
  | case6 c cs p done _ _ _ ih => exact ih here.after

/-- Passing the characters of a class. -/
theorem before_dropWhile {p : Position} {cs : List Char} (here : p.Before content cs) (class? : Char → Bool) :
    (p.afterAll (cs.takeWhile class?)).Before content (cs.dropWhile class?) := by
  rw [← List.takeWhile_append_dropWhile (p := class?) (l := cs)] at here
  exact here.afterAll

theorem append_of_punctuator? {cs passed rest : List Char} {mark : Punctuator}
    (found : punctuator? cs = some (mark, passed, rest)) : cs = passed ++ rest := by
  unfold punctuator? at found
  split at found
  · split at found
    · cases found
      rfl
    · obtain ⟨_, _, same⟩ := Option.map_eq_some_iff.1 found
      cases same
      rfl
  · obtain ⟨_, _, same⟩ := Option.map_eq_some_iff.1 found
    cases same
    rfl
  · cases found

theorem staysIn_readLexeme {p : Position} {cs : List Char} (here : p.Before content cs) :
    StaysIn content (readLexeme cs p) := by
  cases cs with
  | nil => exact staysIn_ok here
  | cons c cs =>
    simp only [readLexeme]
    split
    · exact staysIn_map (staysIn_readString here.liesIn here.after)
    split
    · simp only [readNumber]
      split
      · exact staysIn_error (before_dropWhile here _) here.liesIn
      · exact staysIn_ok (before_dropWhile here _)
    split
    · exact staysIn_ok here.after
    split
    · exact staysIn_ok (before_dropWhile here.after _)
    split
    · next found =>
      rw [append_of_punctuator? found] at here
      exact staysIn_ok here.afterAll
    split
    · exact staysIn_ok (before_dropWhile here _)
    · exact staysIn_error here here.liesIn

theorem staysIn_read {r : Reader} (here : r.position.Before content r.rest) : StaysIn content r.read := by
  rw [read_eq]
  exact staysIn_map (staysIn_readLexeme (before_dropWhile here isBlank))

/-- A token has the place of what is left behind the blanks. -/
theorem liesIn_of_read {r left : Reader} {t : Token} (here : r.position.Before content r.rest)
    (read : r.read = (.ok t, left)) : t.position.LiesIn content := by
  rw [(of_read read).1]
  exact (before_dropWhile here isBlank).liesIn

end Reader

/-- All places that tokens can report have a property. -/
structure Tokens.Lie (P : Position → Prop) (ts : Tokens) : Prop where
  tokens : ∀ t ∈ ts.list, P t.position
  complete : ∀ p, ts.ending = .complete p → P p
  failed : ∀ failure, ts.ending = .failed failure → P failure.position

namespace Tokens.Lie

open Reader

variable {P : Position → Prop} {ts : Tokens}

theorem of_reader {content : String} {r : Reader} (here : r.position.Before content r.rest) :
    r.tokens.Lie (Position.LiesIn content) := by
  induction r using tokens_induction with
  | fault r left failure read =>
    have stays := staysIn_read here
    rw [read] at stays
    rw [tokens_of_error read]
    refine ⟨nofun, nofun, fun _ ends => ?_⟩
    cases ends
    exact stays.2 failure rfl
  | eof r left t read ends =>
    rw [tokens_of_eof read ends]
    refine ⟨nofun, fun _ ends => ?_, nofun⟩
    cases ends
    exact liesIn_of_read here read
  | token r left t read more ih =>
    have stays := staysIn_read here
    rw [read] at stays
    have later := ih stays.1
    rw [tokens_of_ok read more]
    refine ⟨fun t' member => ?_, later.complete, later.failed⟩
    rcases List.mem_cons.1 member with rfl | member
    · exact liesIn_of_read here read
    · exact later.tokens t' member

theorem ofText (content : String) : (Tokens.ofText content).Lie (Position.LiesIn content) :=
  of_reader (r := .ofText content) ⟨[], rfl, rfl⟩

theorem rest (lie : ts.Lie P) : ts.rest.Lie P :=
  ⟨fun t member => lie.tokens t (List.mem_of_mem_tail member), lie.complete, lie.failed⟩

theorem skipNewlines (lie : ts.Lie P) : ts.skipNewlines.Lie P :=
  ⟨fun t member => lie.tokens t ((List.dropWhile_suffix _).subset member), lie.complete, lie.failed⟩

/-- The token at the front, or the fault met instead. -/
theorem front (lie : ts.Lie P) : match ts.front with
    | .ok t => P t.position
    | .error failure => P failure.position := by
  obtain ⟨list, ending⟩ := ts
  cases list with
  | cons t list => exact lie.tokens t List.mem_cons_self
  | nil =>
    cases ending with
    | complete p => exact lie.complete p rfl
    | failed failure => exact lie.failed failure rfl

end Tokens.Lie

/-! ## Parsing -/

namespace Parser

variable {α β : Type} {P : Position → Prop}

/-- From tokens that lie somewhere, a parser makes what lies there, or fails there. -/
def Makes (P : Position → Prop) (p : Parser α) (Q : α → Prop) : Prop :=
  ∀ ts : Tokens, ts.Lie P → match p.run ts with
    | .ok (x, left) => Q x ∧ left.Lie P
    | .error failure => P failure.position

namespace Makes

variable {p : Parser α} {f : α → Parser β} {Q : α → Prop} {R : β → Prop}

theorem pure {x : α} (made : Q x) : Makes P (pure x : Parser α) Q := fun _ lie => ⟨made, lie⟩

theorem throw {failure : Source.Failure} (here : P failure.position) :
    Makes P (throw failure : Parser α) Q := fun _ _ => here

theorem bind (first : Makes P p Q) (rest : ∀ x, Q x → Makes P (f x) R) : Makes P (p >>= f) R := by
  intro ts lie
  have here := first ts lie
  rw [StateT.run_bind]
  rcases run : p.run ts with failure | ⟨x, left⟩
  · rw [run] at here
    exact here
  · rw [run] at here
    exact rest x here.1 left here.2

theorem get : Makes P (get : Parser Tokens) (Tokens.Lie P) := fun _ lie => ⟨lie, lie⟩

theorem set {ts : Tokens} (lie : ts.Lie P) : Makes P (set ts : Parser PUnit) fun _ => True :=
  fun _ _ => ⟨trivial, lie⟩

theorem modify {g : Tokens → Tokens} (keeps : ∀ ts : Tokens, ts.Lie P → (g ts).Lie P) :
    Makes P (modify g : Parser PUnit) fun _ => True :=
  fun ts lie => ⟨trivial, keeps ts lie⟩

/-! ### Taking tokens -/

/-- The token at the front of some tokens. -/
theorem front {ts : Tokens} (lie : ts.Lie P) :
    Makes P (MonadExcept.ofExcept ts.front : Parser Token) fun t => P t.position := by
  have here := lie.front
  rcases found : ts.front with failure | t
  · rw [found] at here
    exact throw here
  · rw [found] at here
    exact pure here

theorem skipNewlines : Makes P skipNewlines fun _ => True := by
  refine (modify fun ts lie => lie.skipNewlines).bind fun _ _ => get.bind fun ts lie => ?_
  exact (front lie).bind fun _ _ => pure trivial

theorem peek (mode : Mode) : Makes P (peek mode) fun t => P t.position := by
  have looks : Makes P (do MonadExcept.ofExcept (← MonadState.get).front : Parser Token)
      fun t => P t.position := get.bind fun ts lie => front lie
  unfold Parser.peek
  dsimp only
  split
  · exact (modify fun ts lie => lie.skipNewlines).bind fun _ _ => looks
  · exact looks

theorem next (mode : Mode) : Makes P (next mode) fun t => P t.position := by
  refine (peek mode).bind fun t here => ?_
  exact (modify fun ts lie => lie.rest).bind fun _ _ => pure here

theorem fail {fault : Source.Grammatical} {t : Token} (here : P t.position) :
    Makes P (fail fault t : Parser α) Q :=
  throw here

theorem atLexeme (mode : Mode) (lexeme : Lexeme) : Makes P (atLexeme mode lexeme) fun _ => True :=
  (peek mode).bind fun _ _ => pure trivial

theorem atMark (mode : Mode) (mark : Punctuator) : Makes P (atMark mode mark) fun _ => True :=
  atLexeme mode _

theorem consume (mode : Mode) (lexeme : Lexeme) : Makes P (consume mode lexeme) fun t => P t.position := by
  refine (peek mode).bind fun t here => ?_
  split
  · exact next mode
  · exact fail here

theorem consumeMark (mode : Mode) (mark : Punctuator) :
    Makes P (consumeMark mode mark) fun t => P t.position :=
  consume mode _

theorem consumeName (mode : Mode) : Makes P (consumeName mode) fun name => P name.position := by
  refine (peek mode).bind fun t here => ?_
  split
  · exact (next mode).bind fun _ _ => pure here
  · exact fail here

theorem exhausted : Makes P (exhausted : Parser α) Q := (peek .plain).bind fun _ here => fail here

theorem separated (item : Makes P p Q) (close : Punctuator) (fuel : Nat) :
    Makes P (separated p close fuel) fun xs => ∀ x ∈ xs, Q x := by
  induction fuel with
  | zero => exact exhausted
  | succ fuel ih =>
    refine (atMark .bracketed close).bind fun closed _ => ?_
    split
    · exact pure nofun
    · refine item.bind fun x made => (atMark .bracketed .comma).bind fun comma _ => ?_
      split
      · refine (next .bracketed).bind fun _ _ => ih.bind fun xs all => pure ?_
        exact List.forall_mem_cons.2 ⟨made, all⟩
      · exact pure (List.forall_mem_singleton.2 made)

theorem enclosed (item : Makes P p Q) (opening close : Punctuator) (fuel : Nat) :
    Makes P (enclosed p opening close fuel) fun made => P made.1.position ∧ ∀ x ∈ made.2, Q x := by
  refine (consumeMark .bracketed opening).bind fun t here => ?_
  refine (separated item close fuel).bind fun xs all => ?_
  exact (consumeMark .bracketed close).bind fun _ _ => pure ⟨here, all⟩

/-! ### Expressions -/

section

variable {nested : Parser Expr} {mode : Mode}

theorem number {t : Token} (here : P t.position) (text : String) :
    Makes P (Expr.number t text) (Expr.Within P) := by
  unfold Expr.number
  dsimp only
  split
  · exact pure (.literal here)
  · split
    · exact fail here
    · split
      · exact pure (.literal here)
      · exact fail here

theorem dictEntry (inside : Makes P nested (Expr.Within P)) :
    Makes P (Expr.dictEntry nested) fun e => e.1.Within P ∧ e.2.Within P := by
  refine inside.bind fun key liesKey => (consumeMark _ _).bind fun _ _ => ?_
  exact inside.bind fun value liesValue => pure ⟨liesKey, liesValue⟩

theorem fieldEntry (inside : Makes P nested (Expr.Within P)) :
    Makes P (Expr.fieldEntry nested) fun e => P e.1.position ∧ e.2.Within P := by
  refine (consumeName _).bind fun name here => (consumeMark _ _).bind fun _ _ => ?_
  exact inside.bind fun value lies => pure ⟨here, lies⟩

theorem primary (inside : Makes P nested (Expr.Within P)) (mode : Mode) (fuel : Nat) :
    Makes P (Expr.primary nested mode fuel) (Expr.Within P) := by
  refine (peek mode).bind fun t here => ?_
  split
  · exact (next mode).bind fun _ _ => number here _
  · exact (next mode).bind fun _ _ => pure (.literal here)
  · exact (next mode).bind fun _ _ => pure (.literal here)
  · exact (next mode).bind fun _ _ => pure (.literal here)
  · refine (next mode).bind fun _ _ => (atMark mode _).bind fun brace _ => ?_
    split
    · refine (enclosed (fieldEntry inside) _ _ fuel).bind fun made all => ?_
      exact pure (.structInit here (fun f member => (all.2 f member).1) fun f member => (all.2 f member).2)
    · exact pure (.ident here)
  · refine (next _).bind fun _ _ => inside.bind fun e lies => ?_
    exact (consumeMark _ _).bind fun _ _ => pure lies
  · exact (enclosed inside _ _ fuel).bind fun made all => pure (.list here all.2)
  · refine (enclosed (dictEntry inside) _ _ fuel).bind fun made all => ?_
    exact pure (.dict here (fun e member => (all.2 e member).1) fun e member => (all.2 e member).2)
  · exact fail here

theorem sliceRest (inside : Makes P nested (Expr.Within P)) {opening : Token} (here : P opening.position)
    {target : Expr} (lies : target.Within P) {first : Option Expr} (liesFirst : ∀ e ∈ first, e.Within P) :
    Makes P (Expr.sliceRest nested opening target first) (Expr.Within P) := by
  have close {last : Option Expr} (liesLast : ∀ e ∈ last, e.Within P) :
      Makes P (do
        let _ ← Parser.consumeMark .bracketed .rightBracket
        return Expr.slice opening.position target first last) (Expr.Within P) :=
    (consumeMark _ _).bind fun _ _ => pure (.slice here lies liesFirst liesLast)
  refine (consumeMark _ _).bind fun _ _ => (atMark _ _).bind fun closed _ => ?_
  dsimp only
  split
  · exact close nofun
  · refine Makes.bind (Q := fun last => ∀ e ∈ last, Expr.Within P e) ?_ fun last liesLast => close liesLast
    rw [map_eq_pure_bind]
    exact inside.bind fun e lies => pure fun e' same => by cases same; exact lies

theorem subscript (inside : Makes P nested (Expr.Within P)) {target : Expr} (lies : target.Within P) :
    Makes P (Expr.subscript nested target) (Expr.Within P) := by
  refine (consumeMark _ _).bind fun t here => (atMark _ _).bind fun colon _ => ?_
  split
  · exact sliceRest inside here lies nofun
  · refine inside.bind fun first liesFirst => (atMark _ _).bind fun colon _ => ?_
    split
    · exact sliceRest inside here lies fun e same => by cases same; exact liesFirst
    · exact (consumeMark _ _).bind fun _ _ => pure (.index here lies liesFirst)

theorem suffixes (inside : Makes P nested (Expr.Within P)) (mode : Mode) (fuel : Nat) {e : Expr}
    (lies : e.Within P) : Makes P (Expr.suffixes nested mode fuel e) (Expr.Within P) := by
  induction fuel generalizing e with
  | zero => exact exhausted
  | succ fuel ih =>
    refine (peek mode).bind fun t here => ?_
    split
    · exact (enclosed inside _ _ fuel).bind fun made all => ih (.call all.1 lies all.2)
    · exact (subscript inside lies).bind fun e lies => ih lies
    · refine (next mode).bind fun _ _ => (consumeName mode).bind fun name _ => ?_
      exact ih (.select here lies)
    · exact pure lies

theorem operand (inside : Makes P nested (Expr.Within P)) (mode : Mode) (fuel : Nat) :
    Makes P (Expr.operand nested mode fuel) (Expr.Within P) := by
  induction fuel with
  | zero => exact exhausted
  | succ fuel ih =>
    refine (peek mode).bind fun t here => ?_
    split
    · exact (next mode).bind fun _ _ => ih.bind fun e lies => pure (.unary here lies)
    · exact (primary inside mode _).bind fun e lies => suffixes inside mode _ lies

theorem chain {right : Parser Expr} (inside : Makes P right (Expr.Within P)) (mode : Mode)
    (level fuel : Nat) {e : Expr} (lies : e.Within P) :
    Makes P (Expr.chain right mode level fuel e) (Expr.Within P) := by
  induction fuel generalizing e with
  | zero => exact exhausted
  | succ fuel ih =>
    refine (peek mode).bind fun t here => ?_
    split
    · split
      · exact (next mode).bind fun _ _ => inside.bind fun r liesRight => ih (.binary here lies liesRight)
      · exact pure lies
    · exact pure lies

theorem operation {operand : Parser Expr} (inside : Makes P operand (Expr.Within P)) (mode : Mode)
    (fuel count : Nat) : Makes P (Expr.operation operand mode fuel count) (Expr.Within P) := by
  induction count with
  | zero => exact inside
  | succ count ih => exact ih.bind fun e lies => chain ih mode _ fuel lies

theorem expr (fuel : Nat) (mode : Mode) : Makes P (Expr.parse fuel mode) (Expr.Within P) := by
  induction fuel generalizing mode with
  | zero => exact exhausted
  | succ fuel ih => exact operation (operand (ih .bracketed) mode _) mode _ _

end

/-! ### Statements -/

section

variable {stmt : Parser Stmt}

/-- Code that lies somewhere; nothing is asked of the bodies of functions. -/
abbrev Lies (P : Position → Prop) : Stmt → Prop := Stmt.Within P fun _ => True

/-- A declared function that lies somewhere. -/
def LiesDecl (P : Position → Prop) (d : FunctionDecl) : Prop := P d.position ∧ ∀ s ∈ d.body, Lies P s

theorem blockRest (inside : Makes P stmt (Lies P)) (fuel : Nat) :
    Makes P (Stmt.blockRest stmt fuel) fun block => ∀ s ∈ block, Lies P s := by
  induction fuel with
  | zero => exact exhausted
  | succ fuel ih =>
    refine skipNewlines.bind fun _ _ => (peek _).bind fun t here => ?_
    split
    · exact (next _).bind fun _ _ => pure nofun
    · split
      · exact fail here
      · refine inside.bind fun s lies => ih.bind fun rest all => pure ?_
        exact List.forall_mem_cons.2 ⟨lies, all⟩

theorem block (inside : Makes P stmt (Lies P)) (fuel : Nat) :
    Makes P (Stmt.block stmt fuel) fun block => ∀ s ∈ block, Lies P s :=
  (consumeMark _ _).bind fun _ _ => blockRest inside fuel

theorem importParts (fuel : Nat) : Makes P (Stmt.importPath.parts fuel) fun _ => True := by
  induction fuel with
  | zero => exact exhausted
  | succ fuel ih =>
    refine (atMark _ _).bind fun slash _ => ?_
    split
    · refine (next _).bind fun _ _ => (consumeName _).bind fun _ _ => ?_
      exact ih.bind fun _ _ => pure trivial
    · exact pure trivial

theorem importPath (fuel : Nat) : Makes P (Stmt.importPath fuel) fun _ => True := by
  refine (peek _).bind fun t here => ?_
  split
  · exact (next _).bind fun _ _ => pure trivial
  · exact (next _).bind fun _ _ => (importParts fuel).bind fun _ _ => pure trivial
  · exact fail here

theorem functionDecl (inside : Makes P stmt (Lies P)) (fuel : Nat) :
    Makes P (Stmt.functionDecl stmt fuel) (LiesDecl P) := by
  refine (consume _ _).bind fun t here => (consumeName _).bind fun name _ => ?_
  refine (enclosed (consumeName _) _ _ fuel).bind fun params _ => ?_
  exact (block inside fuel).bind fun body all => pure ⟨here, all⟩

theorem members (inside : Makes P stmt (Lies P)) (structName : String) (bound fuel : Nat) :
    Makes P (Stmt.members stmt structName bound fuel) fun made => ∀ d ∈ made.2, LiesDecl P d := by
  induction fuel with
  | zero => exact exhausted
  | succ fuel ih =>
    refine skipNewlines.bind fun _ _ => (peek _).bind fun t here => ?_
    split
    · exact (next _).bind fun _ _ => pure nofun
    · exact (next _).bind fun _ _ => ih.bind fun made all => pure all
    · exact (next _).bind fun _ _ => ih
    · exact (next _).bind fun _ _ => ih
    · refine (functionDecl inside bound).bind fun method lies => ih.bind fun made all => pure ?_
      exact List.forall_mem_cons.2 ⟨lies, all⟩
    · exact fail here

theorem structDeclaration (inside : Makes P stmt (Lies P)) (fuel : Nat) :
    Makes P (Stmt.structDeclaration stmt fuel) (Lies P) := by
  refine (consume _ _).bind fun t here => (consumeName _).bind fun name _ => ?_
  refine (consumeMark _ _).bind fun _ _ => (members inside _ fuel fuel).bind fun made all => pure ?_
  exact .structDecl here (fun _ _ _ _ => trivial) fun d member => (all d member).2

/-- Branches that lie somewhere. -/
def LieBranches (P : Position → Prop) (branches : List (Expr × Block)) (otherwise : Option Block) : Prop :=
  (∀ b ∈ branches, b.1.Within P ∧ ∀ s ∈ b.2, Lies P s) ∧ ∀ block ∈ otherwise, ∀ s ∈ block, Lies P s

theorem branches (inside : Makes P stmt (Lies P)) (bound fuel : Nat) :
    Makes P (Stmt.branches stmt bound fuel) fun made => LieBranches P made.1 made.2 := by
  induction fuel with
  | zero => exact exhausted
  | succ fuel ih =>
    refine get.bind fun place lie => skipNewlines.bind fun _ _ => (peek _).bind fun t here => ?_
    split
    · refine (next _).bind fun _ _ => (expr bound _).bind fun condition lies => ?_
      refine (block inside bound).bind fun body all => ih.bind fun made rest => pure ?_
      exact ⟨List.forall_mem_cons.2 ⟨⟨lies, all⟩, rest.1⟩, rest.2⟩
    · refine (next _).bind fun _ _ => (block inside bound).bind fun body all => pure ⟨nofun, ?_⟩
      exact fun block same => by cases same; exact all
    · exact (set lie).bind fun _ _ => pure ⟨nofun, nofun⟩

theorem ifStatement (inside : Makes P stmt (Lies P)) (fuel : Nat) :
    Makes P (Stmt.ifStatement stmt fuel) (Lies P) := by
  refine (consume _ _).bind fun t here => (expr fuel _).bind fun condition lies => ?_
  refine (block inside fuel).bind fun body all => (branches inside fuel fuel).bind fun made rest => pure ?_
  have whole : LieBranches P ((condition, body) :: made.1) made.2 :=
    ⟨List.forall_mem_cons.2 ⟨⟨lies, all⟩, rest.1⟩, rest.2⟩
  exact .conditional here (fun b member => (whole.1 b member).1) (fun b member => (whole.1 b member).2) whole.2

theorem name? : Makes P Stmt.name? fun _ => True := by
  refine (peek _).bind fun t _ => ?_
  split
  · exact (next _).bind fun _ _ => pure trivial
  · exact pure trivial

theorem loopNames? : Makes P Stmt.loopNames? fun _ => True := by
  have attempt : Makes P Stmt.loopNames?.attempt fun _ => True := by
    refine name?.bind fun counter _ => ?_
    split
    · refine (atMark _ _).bind fun comma _ => ?_
      split
      · exact pure trivial
      · refine (next _).bind fun _ _ => name?.bind fun element _ => ?_
        split
        · refine (atLexeme _ _).bind fun word _ => ?_
          split
          · exact pure trivial
          · exact (next _).bind fun _ _ => pure trivial
        · exact pure trivial
    · exact pure trivial
  refine get.bind fun place lie => attempt.bind fun found _ => ?_
  dsimp only
  split
  · exact (set lie).bind fun _ _ => pure trivial
  · exact pure trivial

theorem forStatement (inside : Makes P stmt (Lies P)) (fuel : Nat) :
    Makes P (Stmt.forStatement stmt fuel) (Lies P) := by
  refine (consume _ _).bind fun t here => loopNames?.bind fun names _ => ?_
  split
  · refine (expr fuel _).bind fun target lies => (block inside fuel).bind fun body all => ?_
    exact pure (.forIn here lies all)
  · refine (expr fuel _).bind fun condition lies => (block inside fuel).bind fun body all => ?_
    exact pure (.loop here lies all)

theorem returnStatement (fuel : Nat) : Makes P (Stmt.returnStatement fuel) (Lies P) := by
  refine (consume _ _).bind fun t here => (peek _).bind fun _ _ => ?_
  split
  · exact pure (.returnValue here nofun)
  · refine (expr fuel _).bind fun e lies => pure (.returnValue here ?_)
    exact fun e' same => by cases same; exact lies

theorem exprList (bound fuel : Nat) : Makes P (Stmt.exprList bound fuel) fun es => ∀ e ∈ es, e.Within P := by
  induction fuel with
  | zero => exact exhausted
  | succ fuel ih =>
    refine (expr bound _).bind fun e lies => (atMark _ _).bind fun comma _ => ?_
    have single := List.forall_mem_singleton.2 lies
    split
    · refine (next _).bind fun _ _ => (peek _).bind fun t _ => ?_
      split
      · exact pure single
      · exact ih.bind fun more all => pure (List.forall_mem_cons.2 ⟨lies, all⟩)
    · exact pure single

theorem simpleStatement (fuel : Nat) : Makes P (Stmt.simpleStatement fuel) (Lies P) := by
  refine (exprList fuel fuel).bind fun left all => (peek _).bind fun t here => ?_
  split
  · refine (next _).bind fun _ _ => (peek _).bind fun behind there => ?_
    split
    · exact fail there
    · exact (exprList fuel fuel).bind fun right all' => pure (.assign here all all')
  · split
    · next second _ =>
      exact throw (all second (List.mem_cons_of_mem _ List.mem_cons_self)).position
    · exact pure (.expr (all _ List.mem_cons_self))
    · exact exhausted

theorem statement (fuel : Nat) : Makes P (Stmt.parse fuel) (Lies P) := by
  induction fuel with
  | zero => exact exhausted
  | succ fuel inside =>
    refine (peek _).bind fun t here => ?_
    split
    · exact (next _).bind fun _ _ => pure (.comment here)
    · exact (next _).bind fun _ _ => (importPath _).bind fun _ _ => pure (.importModule here)
    · refine (functionDecl inside _).bind fun d lies => pure ?_
      exact .function lies.1 (fun _ _ => trivial) lies.2
    · exact structDeclaration inside _
    · exact ifStatement inside _
    · exact forStatement inside _
    · exact returnStatement _
    · exact (next _).bind fun _ _ => pure (.breakLoop here)
    · exact (next _).bind fun _ _ => pure (.continueLoop here)
    · exact simpleStatement _

end

end Makes

end Parser

/-! ## Programs -/

namespace Program

variable {P : Position → Prop}

theorem within_ofTokensWith {ts : Tokens} (bound fuel : Nat) (start : P .start) (lie : ts.Lie P) :
    (∀ s ∈ (ofTokensWith bound fuel ts).statements, s.Within P fun _ => True) ∧
      ∀ failure, (ofTokensWith bound fuel ts).ending = .failed failure → P failure.position := by
  induction fuel generalizing ts with
  | zero =>
    refine ⟨nofun, fun failure ends => ?_⟩
    cases ends
    exact start
  | succ fuel ih =>
    have next : Parser.Makes P (statement? bound) fun found => ∀ s, found = .ok s →
        s.Within P fun _ => True := by
      refine Parser.Makes.skipNewlines.bind fun _ _ => (Parser.Makes.peek _).bind fun t _ => ?_
      split
      · exact .pure nofun
      · exact (Parser.Makes.statement bound).bind fun s lies => .pure fun s' same => by cases same; exact lies
    have here := next ts lie
    rw [ofTokensWith]
    rcases run : (statement? bound).run ts with failure | ⟨found, left⟩
    · rw [run] at here
      refine ⟨nofun, fun failure' ends => ?_⟩
      cases ends
      exact here
    · rw [run] at here
      cases found with
      | error p => exact ⟨nofun, nofun⟩
      | ok s =>
        obtain ⟨later, ending⟩ := ih here.2
        exact ⟨List.forall_mem_cons.2 ⟨here.1 s rfl, later⟩, ending⟩

/-- The statements of a text lie in it, and so does the failure it ends with. -/
theorem within_ofText (content : String) :
    (∀ s ∈ (ofText content).statements, s.Within (Position.LiesIn content) fun _ => True) ∧
      ∀ failure, (ofText content).ending = .failed failure → failure.position.LiesIn content := by
  have start : Position.LiesIn content .start := by
    have here : Position.Before content content.toList .start := ⟨[], rfl, rfl⟩
    exact here.liesIn
  exact within_ofTokensWith _ _ start (.ofText content)

end Program

end Shiba

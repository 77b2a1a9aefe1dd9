import Shiba.Proofs.Stepwise.Expr
import Shiba.Program

/-!
# Reading statements and programs

The parsers of statements are followed by a reading, from where a statement can start to where it is
one of the statements that have been read.  A parser that looks ahead and comes back has no
counterpart: the reading keeps what it has seen until the next token decides.

* `reads_stmt`: a statement is followed, with all the blocks in it.
* `Program.ofTokens_eq_run`: reading token by token makes the program that parsing makes.
-/

namespace Shiba.Stepwise

open Shiba.Expr (unaryOp? binaryOp?)
open Shiba.Stmt (assignOp? endsAt)

variable {α : Type} {whole : Program} {r : Reading} {now : Now} {ts : Tokens} {t : Token} {head : Head}
  {mode : Mode} {stmt : Parser Stmt} {bound : Nat}

/-! ## The ends of statements -/

namespace Reading

/-- Where a statement can start, newlines are skipped like tokens that do nothing. -/
theorem advance_start (between : r.now = .start) : r.advance t = r.begin t := by
  rcases r with ⟨outer, before, now⟩
  obtain rfl : now = .start := between
  unfold advance
  split
  · rename_i newline
    simp only [begin, newline.1]
    rfl
  · rfl

/-- An expression starts like any operand. -/
theorem startExpr_eq_offer :
    r.startExpr head mode t =
      ({ r with now := .expr head [] (.operand mode) } : Reading).offer t := by
  simp only [startExpr, offer, inExpr, Look.move]
  cases move : operandMove mode [] t with
  | finished e => exact absurd move operandMove_ne_finished
  | _ => rfl

end Reading

namespace At

/-- A token behind a statement that it is none of. -/
theorem finish {s : Stmt} (stands : At whole r now ts) (meets : Meets now ts t)
    (offer : ({ r with now } : Reading).offer t = r.finish s t) : At whole (r.add s) .start ts := by
  refine (Reading.run_congr meets.front ?_).symm.trans stands
  rw [Reading.advance_of_ne (r := { r with now }) meets.settled, offer, Reading.finish]
  exact (Reading.advance_start rfl).symm

/-- An expression starts. -/
theorem startExpr (stands : At whole r now ts) (meets : Meets now ts t)
    (other : t.lexeme ≠ .newline)
    (offer : ({ r with now } : Reading).offer t = r.startExpr head mode t) :
    At whole r (.expr head [] (.operand mode)) ts :=
  stands.congr meets (fun newline => absurd newline other) (offer.trans Reading.startExpr_eq_offer)

end At

/-- An expression behind which no operator stands is over. -/
theorem Valued.finished {e : Shiba.Expr} (valued : Valued whole r head [] mode 0 e ts) :
    ∃ t, Meets (.expr head [] (.value mode e)) ts t ∧
      ({ r with now := .expr head [] (.value mode e) } : Reading).offer t = r.behindExpr e t head := by
  obtain ⟨t, meets, no⟩ := valued.front
  have none : binaryOp? t.lexeme = none := by
    cases found : binaryOp? t.lexeme with
    | none => rfl
    | some op => exact absurd (no op found) (Nat.not_lt_zero _)
  refine ⟨t, meets, ?_⟩
  simp only [Reading.offer, Reading.inExpr, Look.move, valueMove, none]
  cases head <;> rfl

/-! ## Blocks -/

/-- A parser of statements is followed wherever a statement can start. -/
def ReadsStmt (whole : Program) (stmt : Parser Stmt) (bound : Nat) : Prop :=
  ∀ (r : Reading) ts t, ts.list.length < bound → ts.front = .ok t → t.lexeme ≠ .newline →
    t.lexeme ≠ .eof → (t.lexeme = .punct .rightBrace → r.outer = []) → At whole r .start ts →
    Follows whole r stmt ts fun s rest =>
      rest.list.length < ts.list.length ∧ At whole (r.add s) .start rest

/-- What the innermost block belongs to takes it when it ends. -/
structure Closed (whole : Program) (r : Reading) (owner : Owner) (body : Block) (ts : Tokens) :
    Prop where
  run : (Reading.closeBlock r body owner).run ts = whole

theorem Follows.of_done {p : Parser α} {r' : Reading} {post : α → Tokens → Prop}
    (follows : Follows whole r' p ts post) (same : r'.done = r.done) : Follows whole r p ts post := by
  unfold Follows at *
  rw [same] at follows
  exact follows

/-- The statements of a block up to its closing brace. -/
theorem follows_blockRest {owner : Owner} (before : Block) (reads : ReadsStmt whole stmt bound)
    (fuel : Nat) (enough : ts.list.length < fuel) (deep : ts.list.length < bound)
    (stands : At whole ⟨(owner, r.before) :: r.outer, before, .start⟩ .start ts) :
    Follows whole r (Shiba.Stmt.blockRest stmt fuel) ts fun body rest =>
      rest.list.length < ts.list.length ∧ Closed whole r owner (before ++ body) rest := by
  induction fuel generalizing ts before with
  | zero => omega
  | succ fuel ih =>
    have same : (⟨(owner, r.before) :: r.outer, before, .start⟩ : Reading).done = r.done := rfl
    refine Follows.of_done (Follows.bind ?_) same
    refine Follows.skipNewlines stands rfl fun t ts₁ _ shorter front other stands₁ => ?_
    have meets : Meets .start ts₁ t := ⟨front, fun newline => absurd newline other⟩
    refine Follows.bind (Follows.peek_known front Follows.settled_plain ?_)
    by_cases closes : t.lexeme = .punct .rightBrace
    · rw [if_pos closes]
      refine Follows.bind (Follows.next_known front Follows.settled_plain ?_)
      have more : t.lexeme ≠ .eof := by simp [closes]
      refine Follows.pure ⟨by have := Tokens.length_rest_lt front more; omega, ⟨?_⟩⟩
      rw [List.append_nil]
      refine (Reading.run_of_advance_ok front more ?_).symm.trans stands₁
      rw [Reading.advance_start rfl]
      simp only [Reading.begin, closes]
      cases owner with
      | function host => cases host <;> rfl
      | _ => rfl
    rw [if_neg closes]
    by_cases ends : t.lexeme = .eof
    · rw [if_pos ends]
      refine Follows.fail (stands₁.stop meets ?_)
      simp only [Reading.offer, Reading.begin, ends]
      rfl
    rw [if_neg ends]
    refine Follows.andThen (reads _ ts₁ t (by omega) front other ends (fun h => absurd h closes)
      stands₁) fun s ts₂ after => ?_
    obtain ⟨fewer, stands₂⟩ := after
    refine Follows.andThen ((ih _ (by omega) (by omega) stands₂).of_done same.symm)
      fun body rest after => ?_
    obtain ⟨fewer₁, closed⟩ := after
    refine Follows.pure ⟨by omega, ?_⟩
    simpa using closed

/-- A block, where one has to come. -/
theorem follows_block (owner : Owner) {fuel : Nat} (reads : ReadsStmt whole stmt bound)
    (enough : ts.list.length ≤ fuel) (deep : ts.list.length ≤ bound)
    (stands : At whole r now ts) (skips : now.skips = false)
    (offer : ∀ t, ts.front = .ok t → ({ r with now } : Reading).offer t = r.expectBlock owner t) :
    Follows whole r (Shiba.Stmt.block stmt fuel) ts fun body rest =>
      rest.list.length < ts.list.length ∧ Closed whole r owner body rest := by
  refine Follows.bind (Follows.bind (Follows.peek_seen stands skips fun t meets stands₁ => ?_))
  have place := offer t meets.front
  split
  · rename_i opens
    refine Follows.next_known meets.front nofun ?_
    have more : t.lexeme ≠ .eof := by rw [opens]; nofun
    have fewer : ts.rest.list.length < ts.list.length := Tokens.length_rest_lt meets.front more
    have stands₂ : At whole (r.openBlock owner) .start ts.rest := by
      refine (Reading.run_of_advance_ok meets.front more ?_).symm.trans stands₁
      rw [Reading.advance_of_ne (r := { r with now }) meets.settled, place, Reading.expectBlock, if_pos opens]
      rfl
    exact (follows_blockRest [] reads fuel (Nat.lt_of_lt_of_le fewer enough)
      (Nat.lt_of_lt_of_le fewer deep) stands₂).mono fun body rest left =>
        ⟨Nat.lt_trans left.1 fewer, left.2⟩
  · rename_i other
    refine Follows.fail (stands₁.stop meets ?_)
    rw [place, Reading.expectBlock, if_neg other]
    rfl

/-- The header of a conditional or a loop, and the block behind it. -/
theorem follows_headed {β : Type} (owner : Shiba.Expr → Owner) {fuel : Nat}
    {f : Shiba.Expr → Block → Parser β} {post : β → Tokens → Prop}
    (reads : ReadsStmt whole stmt bound) (enough : ts.list.length < fuel)
    (deep : ts.list.length ≤ bound) (stands : At whole r (.expr head [] (.operand .heading)) ts)
    (behind : ∀ e t, r.behindExpr e t head = r.expectBlock (owner e) t)
    (goesOn : ∀ e body rest, rest.list.length < ts.list.length → Closed whole r (owner e) body rest →
      Follows whole r (f e body) rest post) :
    Follows whole r (do
        let e ← Shiba.Stmt.heading fuel
        let body ← Shiba.Stmt.block stmt fuel
        f e body) ts post := by
  refine Follows.andThen (reads_parse fuel .heading [] ts enough trivial stands)
    fun e ts₁ ⟨fewer₁, valued⟩ => ?_
  obtain ⟨t, meets, offer⟩ := valued.finished
  refine Follows.andThen (follows_block (owner e) reads (by omega) (by omega) valued.stands rfl
    fun t' front => ?_)
    fun body rest ⟨fewer₂, closed⟩ => goesOn e body rest (by omega) closed
  rw [meets.front] at front
  cases front
  rw [offer, behind]

/-! ## Lists of expressions -/

/-- A list with further expressions. -/
def Side.append (es : List Shiba.Expr) (side : Side) : Side := es.foldl (fun side e => side.push e) side

theorem Side.append_left {es before : List Shiba.Expr} :
    (Side.left before).append es = .left (before ++ es) := by
  induction es generalizing before with
  | nil => simp [append]
  | cons e es ih =>
    simpa [append, push] using @ih (before ++ [e])

theorem Side.append_right {p : Position} {op : AssignOp} {left es before : List Shiba.Expr} :
    (Side.right p op left before).append es = .right p op left (before ++ es) := by
  induction es generalizing before with
  | nil => simp [append]
  | cons e es ih =>
    simpa [append, push] using @ih (before ++ [e])

/-- A list of expressions has been read, and the token at the front is none of it. -/
def Listed (whole : Program) (r : Reading) (side : Side) (es : List Shiba.Expr) (ts : Tokens) : Prop :=
  ∃ init e now t, es = init ++ [e] ∧ At whole r now ts ∧ Meets now ts t ∧
    ({ r with now } : Reading).offer t = r.endList e t (side.append init)

theorem follows_exprList (fuel : Nat) {side : Side} (enough : ts.list.length < fuel)
    (deep : ts.list.length < bound) (stands : At whole r (.expr (.list side) [] (.operand .plain)) ts) :
    Follows whole r (Shiba.Stmt.exprList bound fuel) ts fun es rest =>
      rest.list.length < ts.list.length ∧ Listed whole r side es rest := by
  induction fuel generalizing ts side with
  | zero => omega
  | succ fuel ih =>
    refine Follows.andThen (reads_parse bound .plain [] ts deep trivial stands)
      fun e ts₁ after => ?_
    obtain ⟨fewer₁, valued⟩ := after
    obtain ⟨t, meets, offer⟩ := valued.finished
    refine Follows.bind (Follows.atLexeme_known meets.front Follows.settled_plain ?_)
    by_cases comma : t.lexeme = .punct .comma
    · rw [if_pos (decide_eq_true comma)]
      refine Follows.bind (Follows.next_known meets.front Follows.settled_plain ?_)
      have past := valued.stands.take meets (by simp [comma])
        (offer.trans (by simp only [Reading.behindExpr, if_pos comma]; rfl))
      have fewer₂ := past.fewer
      refine Follows.bind (Follows.peek past.stands rfl fun t₁ ts₂ shorter meets₁ stands₁ => ?_)
      split
      · rename_i ends
        refine Follows.pure ⟨by omega, [], e, .more side e, t₁, rfl, stands₁, meets₁, ?_⟩
        simp only [Reading.offer, if_pos ends]
        rfl
      · rename_i goesOn
        have other : t₁.lexeme ≠ .newline := by
          intro newline
          simp [newline, endsAt] at goesOn
        have starts := stands₁.startExpr meets₁ other (by simp only [Reading.offer, if_neg goesOn]; rfl)
        refine Follows.andThen (ih (by omega) (by omega) starts)
          fun es rest after => ?_
        obtain ⟨fewer₃, init, last, now, t₂, split, listed⟩ := after
        exact Follows.pure ⟨by omega, e :: init, last, now, t₂, by rw [split]; rfl, listed⟩
    · rw [if_neg (by simpa using comma)]
      refine Follows.pure ⟨fewer₁, [], e, _, t, rfl, valued.stands, meets, offer.trans ?_⟩
      simp only [Reading.behindExpr, if_neg comma]
      rfl

/-- An assignment, or an expression by itself. -/
theorem follows_simpleStatement (fuel : Nat) (enough : ts.list.length < fuel)
    (stands : At whole r (.expr (.list (.left [])) [] (.operand .plain)) ts) :
    Follows whole r (Shiba.Stmt.simpleStatement fuel) ts fun s rest =>
      rest.list.length < ts.list.length ∧ At whole (r.add s) .start rest := by
  refine Follows.andThen (follows_exprList fuel enough enough stands)
    fun left ts₁ after => ?_
  obtain ⟨fewer₁, init, e, now, t, split, stands₁, meets, offer⟩ := after
  rw [Side.append_left, List.nil_append] at offer
  refine Follows.bind (Follows.peek_known meets.front Follows.settled_plain ?_)
  split
  · rename_i op assign
    refine Follows.bind (Follows.next_known meets.front Follows.settled_plain ?_)
    have more : t.lexeme ≠ .eof := by
      intro eof
      rw [eof] at assign
      cases assign
    have past := stands₁.take meets more
      (offer.trans (by simp only [Reading.endList, assign]; rfl))
    have fewer₂ := past.fewer
    refine Follows.bind (Follows.peek past.stands rfl fun t₁ ts₂ shorter meets₁ stands₂ => ?_)
    split
    · rename_i ends
      refine Follows.fail (stands₂.stop meets₁ ?_)
      simp only [Reading.offer, if_pos ends]
      rfl
    · rename_i goesOn
      have other : t₁.lexeme ≠ .newline := by
        intro newline
        simp [newline, endsAt] at goesOn
      have starts := stands₂.startExpr meets₁ other (by simp only [Reading.offer, if_neg goesOn]; rfl)
      refine Follows.andThen (follows_exprList fuel (by omega) (by omega) starts)
        fun right rest after => ?_
      obtain ⟨fewer₃, init₁, e₁, now₁, t₂, split₁, stands₃, meets₂, offer₁⟩ := after
      rw [Side.append_right, List.nil_append] at offer₁
      rw [split, split₁]
      exact Follows.pure ⟨by omega, stands₃.finish meets₂ offer₁⟩
  · rename_i none
    simp only [Reading.endList, none] at offer
    subst split
    split
    · rename_i first second others same
      simp only [same] at offer
      exact stands₁.stop meets offer
    · rename_i only same
      simp only [same] at offer
      obtain rfl : e = only := by simpa using congrArg List.getLast? same
      exact Follows.pure ⟨fewer₁, stands₁.finish meets offer⟩
    · rename_i empty
      simp at empty

/-! ## Declarations -/

/-- The further names of an import path. -/
theorem follows_parts {p : Position} {names : List String} (fuel : Nat)
    (enough : ts.list.length < fuel) (stands : At whole r (.importPart p names) ts) :
    Follows whole r (Shiba.Stmt.importPath.parts fuel) ts fun more rest =>
      rest.list.length ≤ ts.list.length ∧ At whole r (.importPart p (names ++ more)) rest ∧
        ∃ t, Meets (.importPart p (names ++ more)) rest t ∧ t.lexeme ≠ .punct .slash := by
  induction fuel generalizing ts names with
  | zero => omega
  | succ fuel ih =>
    refine Follows.bind (Follows.atLexeme stands rfl fun t ts₁ shorter meets stands₁ => ?_)
    by_cases slash : t.lexeme = .punct .slash
    · rw [if_pos (decide_eq_true slash)]
      refine Follows.bind (Follows.next_known meets.front Follows.settled_plain ?_)
      have past := stands₁.take meets (by simp [slash])
        (by simp only [Reading.offer, if_pos slash]; rfl)
      have fewer := past.fewer
      refine Follows.bind (Follows.consumeName past.stands rfl (fun t₁ front unnamed => ?_)
        fun t₁ ts₂ name shorter₁ named meets₁ stands₂ => ?_)
      · simp only [Reading.offer, Reading.expectName]
        rfl
      have past₁ := stands₂.take meets₁ (by simp [named])
        (by simp only [Reading.offer, Reading.expectName, named]; rfl)
      have fewer₁ := past₁.fewer
      refine Follows.andThen (ih (by omega) past₁.stands) fun more rest after => ?_
      obtain ⟨shorter₂, stands₃⟩ := after
      refine Follows.pure ⟨by omega, ?_⟩
      simpa using stands₃
    · rw [if_neg (by simpa using slash)]
      refine Follows.pure ⟨shorter, ?_⟩
      rw [List.append_nil]
      exact ⟨stands₁, t, meets, slash⟩

theorem follows_importPath {p : Position} (fuel : Nat) (enough : ts.list.length ≤ fuel)
    (stands : At whole r (.importing p) ts) :
    Follows whole r (Shiba.Stmt.importPath fuel) ts fun target rest =>
      rest.list.length < ts.list.length ∧ At whole (r.add (.importModule p target)) .start rest := by
  refine Follows.bind (Follows.peek stands rfl fun t ts₁ shorter meets stands₁ => ?_)
  split
  · rename_i value string
    refine Follows.bind (Follows.next_known meets.front Follows.settled_plain ?_)
    have more : t.lexeme ≠ .eof := by simp [string]
    refine Follows.pure ⟨by have := Tokens.length_rest_lt meets.front more; omega, ?_⟩
    refine (Reading.run_of_advance_ok meets.front more ?_).symm.trans stands₁
    rw [Reading.advance_of_ne meets.settled]
    simp only [Reading.offer, string]
    rfl
  · rename_i name ident
    refine Follows.bind (Follows.next_known meets.front Follows.settled_plain ?_)
    have past := stands₁.take meets (by simp [ident])
      (by simp only [Reading.offer, ident]; rfl)
    have fewer := past.fewer
    refine Follows.andThen (follows_parts fuel (by omega) past.stands)
      fun more rest after => ?_
    obtain ⟨shorter₁, stands₂, t₁, meets₁, other⟩ := after
    refine Follows.pure ⟨by omega, stands₂.finish meets₁ ?_⟩
    simp only [Reading.offer, if_neg other]
    rfl
  · refine Follows.fail (stands₁.stop meets ?_)
    simp only [Reading.offer]
    rfl

/-- The parameters of a function are items. -/
theorem items_params (host : Option Members) (p : Position) (name : String) :
    Items whole r (Parser.consumeName .bracketed) .rightParen bound
      (fun before => .param host p name (before.map (·.name)))
      (fun before param => .paramEnd host p name ((before ++ [param]).map (·.name)))
      (fun params => .functionBrace host p name (params.map (·.name))) where
  item_skips _ := rfl
  behind_skips _ _ := rfl
  end_item before t ends := by
    simp only [Reading.offer, if_pos ends]
    rfl
  follows before t ts enough meets other stands := by
    refine Follows.consumeName stands rfl (fun t' front unnamed => ?_)
      fun t' ts' param shorter named meets' stands' => ?_
    · rw [meets.seen fun _ => rfl, meets.front] at front
      cases front
      simp only [Reading.offer, if_neg other, Reading.expectName]
      rfl
    · have past := stands'.take meets' (by simp [named])
        (by simp only [Reading.offer, named, reduceCtorEq, if_false, Reading.expectName]; rfl)
      have fewer := past.fewer
      refine ⟨⟨by omega, ?_⟩, fun t'' _ comma differs => ?_⟩
      · simpa using past.stands
      · simp only [Reading.offer, if_neg comma, Reading.expectMark, if_neg differs]
        rfl
  comma before param t comma := by
    simp only [Reading.offer, if_pos comma]
    rfl
  end_behind before param t ends := by
    simp only [Reading.offer, ends, Reading.expectMark, if_true]
    rfl

/-- A function declaration, as what its body belongs to takes it. -/
theorem follows_functionDecl (host : Option Members) {fuel : Nat} (reads : ReadsStmt whole stmt bound)
    (enough : ts.list.length ≤ fuel) (deep : ts.list.length ≤ bound) (stands : At whole r now ts)
    (meets : Meets now ts t) (word : t.lexeme = .keyword .defWord)
    (offer : ({ r with now } : Reading).offer t = r.go (.functionName host t.position)) :
    Follows whole r (Shiba.Stmt.functionDecl stmt fuel) ts fun decl rest =>
      rest.list.length < ts.list.length ∧
        Closed whole r (.function host decl.position decl.name decl.params) decl.body rest := by
  have past := stands.take meets (by simp [word]) offer
  have fewer := past.fewer
  refine Follows.bind (Follows.consume_known meets.front word (by simp) ?_)
  refine Follows.bind (Follows.consumeName past.stands rfl (fun t₁ front unnamed => ?_)
    fun t₁ ts₁ name shorter₁ named meets₁ stands₁ => ?_)
  · simp only [Reading.offer, Reading.expectName]
    rfl
  have past₁ := stands₁.take meets₁ (by simp [named])
    (by simp only [Reading.offer, Reading.expectName, named]; rfl)
  have fewer₁ := past₁.fewer
  refine Follows.bind (Follows.bind (Follows.consume past₁.stands rfl (by simp) (fun t₂ differs => ?_)
    fun t₂ ts₂ shorter₂ opens meets₂ stands₂ => ?_))
  · simp only [Reading.offer, Reading.expectMark, if_neg differs]
    rfl
  have past₂ := stands₂.take meets₂ (by simp [opens])
    (by simp only [Reading.offer, Reading.expectMark, if_pos opens]; rfl)
  have fewer₂ := past₂.fewer
  refine (items_params host t.position name).follows_closed (by omega) (by omega) past₂.stands
    fun params ts₃ fewer₃ stands₃ => ?_
  refine Follows.andThen (follows_block _ reads (by omega) (by omega) stands₃ rfl fun _ _ => rfl)
    fun body rest after => ?_
  obtain ⟨fewer₄, closed⟩ := after
  exact Follows.pure ⟨by omega, closed⟩

/-- The fields and methods of a struct up to its closing brace. -/
theorem follows_members {m : Members} {nesting : Nat} (reads : ReadsStmt whole stmt bound) (fuel : Nat)
    (enough : ts.list.length < fuel) (deep : ts.list.length ≤ bound) (nested : ts.list.length ≤ nesting)
    (stands : At whole r (.members m) ts) :
    Follows whole r (Shiba.Stmt.members stmt m.name nesting fuel) ts fun found rest =>
      rest.list.length < ts.list.length ∧
        At whole (r.add (.structDecl m.place m.name (m.fields ++ found.1) (m.methods ++ found.2)))
          .start rest := by
  induction fuel generalizing ts m with
  | zero => omega
  | succ fuel ih =>
    refine Follows.bind (Follows.skipNewlines stands rfl fun t ts₁ _ shorter front other stands₁ => ?_)
    have meets : Meets (.members m) ts₁ t := ⟨front, fun newline => absurd newline other⟩
    have take : ∀ {now'}, t.lexeme ≠ .eof →
        ({ r with now := .members m } : Reading).offer t = r.go now' →
        Past whole r ts₁ now' ts₁.rest := fun more => stands₁.take meets more
    refine Follows.bind (Follows.peek_known front Follows.settled_plain ?_)
    split
    · rename_i closes
      refine Follows.bind (Follows.next_known front Follows.settled_plain ?_)
      have more : t.lexeme ≠ .eof := by simp [closes]
      refine Follows.pure ⟨by have := Tokens.length_rest_lt front more; omega, ?_⟩
      refine (Reading.run_of_advance_ok front more ?_).symm.trans stands₁
      rw [Reading.advance_of_ne meets.settled]
      simp only [Reading.offer, closes, List.append_nil]
      rfl
    · rename_i name ident
      refine Follows.bind (Follows.next_known front Follows.settled_plain ?_)
      have past := take (by simp [ident]) (by simp only [Reading.offer, ident]; rfl)
      have fewer := past.fewer
      refine Follows.andThen (ih (m := { m with fields := m.fields ++ [name] }) (by omega) (by omega)
        (by omega) past.stands) fun found rest after => ?_
      obtain ⟨fewer₁, left⟩ := after
      refine Follows.pure ⟨by omega, ?_⟩
      simpa using left
    · rename_i comma
      refine Follows.bind (Follows.next_known front Follows.settled_plain ?_)
      have past := take (by simp [comma]) (by simp only [Reading.offer, comma]; rfl)
      have fewer := past.fewer
      exact (ih (by omega) (by omega) (by omega) past.stands).mono fun found rest left => ⟨by omega, left.2⟩
    · rename_i text comment
      refine Follows.bind (Follows.next_known front Follows.settled_plain ?_)
      have past := take (by simp [comment]) (by simp only [Reading.offer, comment]; rfl)
      have fewer := past.fewer
      exact (ih (by omega) (by omega) (by omega) past.stands).mono fun found rest left => ⟨by omega, left.2⟩
    · rename_i word
      refine Follows.andThen (follows_functionDecl (some m) reads (by omega) (by omega) stands₁
        meets word (by simp only [Reading.offer, word]; rfl)) fun decl ts₂ after => ?_
      obtain ⟨fewer₁, closed⟩ := after
      have stands₂ : At whole r (.members { m with methods := m.methods ++ [decl] }) ts₂ := by
        cases decl
        exact closed.run
      refine Follows.andThen (ih (m := { m with methods := m.methods ++ [decl] }) (by omega) (by omega)
        (by omega) stands₂) fun found rest after => ?_
      obtain ⟨fewer₂, left⟩ := after
      refine Follows.pure ⟨by omega, ?_⟩
      simpa using left
    · refine Follows.fail (stands₁.stop meets ?_)
      simp only [Reading.offer]
      rfl

theorem follows_structDeclaration {fuel : Nat} (reads : ReadsStmt whole stmt bound)
    (enough : ts.list.length ≤ fuel) (deep : ts.list.length ≤ bound) (stands : At whole r now ts)
    (meets : Meets now ts t) (word : t.lexeme = .keyword .structWord)
    (offer : ({ r with now } : Reading).offer t = r.go (.structName t.position)) :
    Follows whole r (Shiba.Stmt.structDeclaration stmt fuel) ts fun s rest =>
      rest.list.length < ts.list.length ∧ At whole (r.add s) .start rest := by
  have past := stands.take meets (by simp [word]) offer
  have fewer := past.fewer
  refine Follows.bind (Follows.consume_known meets.front word (by simp) ?_)
  refine Follows.bind (Follows.consumeName past.stands rfl (fun t₁ front unnamed => ?_)
    fun t₁ ts₁ name shorter₁ named meets₁ stands₁ => ?_)
  · simp only [Reading.offer, Reading.expectName]
    rfl
  have past₁ := stands₁.take meets₁ (by simp [named])
    (by simp only [Reading.offer, Reading.expectName, named]; rfl)
  have fewer₁ := past₁.fewer
  refine Follows.bind (Follows.consume past₁.stands rfl (by simp) (fun t₂ differs => ?_)
    fun t₂ ts₂ shorter₂ opens meets₂ stands₂ => ?_)
  · simp only [Reading.offer, Reading.expectMark, if_neg differs]
    rfl
  have past₂ := stands₂.take meets₂ (by simp [opens])
    (by simp only [Reading.offer, Reading.expectMark, if_pos opens]; rfl)
  have fewer₂ := past₂.fewer
  refine Follows.andThen (follows_members (m := ⟨t.position, name, [], []⟩) reads fuel (by omega)
    (by omega) (by omega) past₂.stands) fun found rest after => ?_
  obtain ⟨fewer₃, left⟩ := after
  exact Follows.pure ⟨by omega, left⟩

/-! ## Conditionals and loops -/

/-- The further branches of a conditional, which looks past newlines for them. -/
theorem follows_branches {p : Position} {before : List (Shiba.Expr × Block)} {nesting : Nat}
    (reads : ReadsStmt whole stmt bound) (fuel : Nat) (enough : ts.list.length < fuel)
    (deep : ts.list.length ≤ bound) (nested : ts.list.length ≤ nesting)
    (stands : At whole r (.branches p before) ts) :
    Follows whole r (Shiba.Stmt.branches stmt nesting fuel) ts fun found rest =>
      rest.list.length ≤ ts.list.length ∧
        At whole (r.add (.conditional p (before ++ found.1) found.2)) .start rest := by
  induction fuel generalizing ts before with
  | zero => omega
  | succ fuel ih =>
    refine Follows.bind (Follows.get ?_)
    refine Follows.bind (Follows.skipNewlines stands rfl fun t ts₁ same shorter front other stands₁ => ?_)
    have meets : Meets (.branches p before) ts₁ t := ⟨front, fun newline => absurd newline other⟩
    refine Follows.bind (Follows.peek_known front Follows.settled_plain ?_)
    split
    · rename_i word
      refine Follows.bind (Follows.next_known front Follows.settled_plain ?_)
      have past := stands₁.take meets (by simp [word]) (by simp only [Reading.offer, word]; rfl)
      have fewer := past.fewer
      refine follows_headed (.branch p before) reads (by omega) (by omega) past.stands
        (fun _ _ => rfl) fun condition body ts₂ fewer₁ closed => ?_
      refine Follows.andThen (ih (by omega) (by omega) (by omega) closed.run)
        fun found rest after => ?_
      obtain ⟨shorter₁, left⟩ := after
      refine Follows.pure ⟨by omega, ?_⟩
      simpa using left
    · rename_i word
      refine Follows.bind (Follows.next_known front Follows.settled_plain ?_)
      have past := stands₁.take meets (by simp [word]) (by simp only [Reading.offer, word]; rfl)
      have fewer := past.fewer
      refine Follows.andThen (follows_block (.otherwise p before) reads (by omega) (by omega)
        past.stands rfl fun _ _ => rfl) fun body rest after => ?_
      obtain ⟨fewer₁, closed⟩ := after
      refine Follows.pure ⟨by omega, ?_⟩
      rw [List.append_nil]
      exact closed.run
    · refine Follows.bind (Follows.set ?_)
      refine Follows.pure ⟨Nat.le_refl _, ?_⟩
      rw [List.append_nil]
      have left : At whole (r.add (.conditional p before none)) .start ts₁ :=
        stands₁.finish meets (by simp only [Reading.offer]; rfl)
      -- the newlines looked past do nothing where the next statement can start either
      rw [same] at left
      exact (Reading.run_skipNewlines rfl).symm.trans left

theorem follows_ifStatement {fuel : Nat} (reads : ReadsStmt whole stmt bound)
    (enough : ts.list.length ≤ fuel) (deep : ts.list.length ≤ bound) (stands : At whole r now ts)
    (meets : Meets now ts t) (word : t.lexeme = .keyword .ifWord)
    (offer : ({ r with now } : Reading).offer t =
      r.go (.expr (.condition t.position []) [] (.operand .heading))) :
    Follows whole r (Shiba.Stmt.ifStatement stmt fuel) ts fun s rest =>
      rest.list.length < ts.list.length ∧ At whole (r.add s) .start rest := by
  have past := stands.take meets (by rw [word]; nofun) offer
  have fewer := past.fewer
  refine Follows.bind (Follows.consume_known meets.front word nofun ?_)
  refine follows_headed (.branch t.position []) reads (by omega) (by omega) past.stands
    (fun _ _ => rfl) fun condition body ts₁ fewer₁ closed => ?_
  refine Follows.andThen (follows_branches reads fuel (by omega) (by omega) (by omega) closed.run)
    fun found rest ⟨shorter, left⟩ => ?_
  exact Follows.pure ⟨by omega, left⟩

/-- A name at the front, which need not be there. -/
theorem follows_name? {post : Option Ident → Tokens → Prop} (stands : At whole r now ts)
    (skips : now.skips = false)
    (named : ∀ t name, Meets now ts t → t.lexeme = .ident name → post (some ⟨t.position, name⟩) ts.rest)
    (unnamed : ∀ t, Meets now ts t → (∀ name, t.lexeme ≠ .ident name) → post none ts) :
    Follows whole r Shiba.Stmt.name? ts post := by
  refine Follows.bind (Follows.peek_seen stands skips fun t meets _ => ?_)
  split
  · rename_i name ident
    exact Follows.bind (Follows.next_known meets.front nofun (named t name meets ident))
  · rename_i other
    exact Follows.pure (unnamed t meets other)

/-- A header that starts with a name and goes on otherwise than with loop variables. -/
theorem At.heading_of_name {p : Position} {name : String} (front : ts.front = .ok t)
    (ident : t.lexeme = .ident name)
    (behind : At whole r (.expr (.loop p) [] (.name .heading t.position name)) ts.rest) :
    At whole r (.expr (.loop p) [] (.operand .heading)) ts := by
  have advance : ({ r with now := .expr (.loop p) [] (.operand .heading) } : Reading).advance t =
      r.go (.expr (.loop p) [] (.name .heading t.position name)) := by
    rw [Reading.advance_of_ne fun _ => rfl]
    exact offer_of_take (by simp only [Look.move, operandMove, unaryOp?, ident, primaryMove])
  exact (Reading.run_of_advance_ok front (by simp [ident]) advance).trans behind

/-- A comma behind a name that starts a header is found where a brace has to come. -/
theorem At.heading_of_comma {p : Position} {name : String} {comma : Token} (front : ts.front = .ok t)
    (ident : t.lexeme = .ident name) (front' : ts.rest.front = .ok comma)
    (mark : comma.lexeme = .punct .comma)
    (stops : whole = ⟨r.done, .failed ⟨.grammatical
      (.expected Punctuator.leftBrace.text (.punct .comma)), comma.position⟩⟩) :
    At whole r (.expr (.loop p) [] (.operand .heading)) ts := by
  refine At.heading_of_name front ident ?_
  rw [stops]
  refine Reading.run_of_advance_error front' ?_
  rw [Reading.advance_of_ne fun _ => rfl]
  simp only [Reading.offer, Reading.inExpr, Look.move, mark, reduceCtorEq, Lexeme.punct.injEq,
    false_and, if_false, suffixMove, valueMove, show binaryOp? (.punct .comma) = none from rfl,
    Reading.behindExpr, Reading.expectBlock]
  rfl

/-- The loop variables, when the header starts with them. -/
theorem follows_loopNames? {p : Position} (stands : At whole r (.looping p) ts) :
    Follows whole r Shiba.Stmt.loopNames? ts fun found rest =>
      match found with
      | some (counter, element) => rest.list.length < ts.list.length ∧
        At whole r (.expr (.target p counter element) [] (.operand .heading)) rest
      | none => rest = ts ∧ At whole r (.expr (.loop p) [] (.operand .heading)) ts := by
  -- whenever the names are not there, the header is read from its start
  have back : ∀ {rest}, At whole r (.expr (.loop p) [] (.operand .heading)) ts →
      Follows whole r (do
        if (none : Option (Ident × Ident)).isNone then set ts
        return (none : Option (Ident × Ident))) rest fun found rest =>
        match found with
        | some (counter, element) => rest.list.length < ts.list.length ∧
          At whole r (.expr (.target p counter element) [] (.operand .heading)) rest
        | none => rest = ts ∧ At whole r (.expr (.loop p) [] (.operand .heading)) ts :=
    fun heading => Follows.bind (Follows.set (Follows.pure ⟨rfl, heading⟩))
  refine Follows.bind (Follows.get (Follows.bind ?_))
  refine Follows.bind (follows_name? stands rfl (fun t name meets ident => ?_)
    fun t meets other => Follows.pure (back ?_))
  · have past := stands.take meets (by simp [ident]) (by simp only [Reading.offer, ident]; rfl)
    refine Follows.bind (Follows.atLexeme_seen past.stands rfl fun t₁ meets₁ stands₁ => ?_)
    by_cases comma : t₁.lexeme = .punct .comma
    · rw [if_neg (by simp [comma])]
      refine Follows.bind (Follows.next_known meets₁.front Follows.settled_plain ?_)
      have past₁ := stands₁.take meets₁ (by simp [comma])
        (by simp only [Reading.offer, if_pos comma]; rfl)
      have lost (stops : whole = _) :=
        At.heading_of_comma (r := r) (p := p) meets.front ident meets₁.front comma stops
      refine Follows.bind (follows_name? past₁.stands rfl (fun t₂ name₂ meets₂ ident₂ => ?_)
        fun t₂ meets₂ other => Follows.pure (back (lost (past₁.stands.stop meets₂ ?_))))
      · have past₂ := past₁.stands.take meets₂ (by simp [ident₂])
          (by simp only [Reading.offer, ident₂]; rfl)
        refine Follows.bind (Follows.atLexeme_seen past₂.stands rfl fun t₃ meets₃ stands₃ => ?_)
        by_cases word : t₃.lexeme = .keyword .inWord
        · rw [if_neg (by simp [word])]
          have past₃ := stands₃.take meets₃ (by simp [word])
            (by simp only [Reading.offer, if_pos word]; rfl)
          refine Follows.bind (Follows.next_known meets₃.front Follows.settled_plain (Follows.pure ?_))
          exact Follows.pure ⟨(past.trans (past₁.trans (past₂.trans past₃))).fewer, past₃.stands⟩
        · rw [if_pos (by simpa using word)]
          refine Follows.pure (back (lost (stands₃.stop meets₃ ?_)))
          simp only [Reading.offer, if_neg word]
          rfl
      · simp only [Reading.offer]
        rfl
    · rw [if_pos (by simpa using comma)]
      refine Follows.pure (back (At.heading_of_name meets.front ident ?_))
      refine stands₁.congr meets₁ (fun _ => rfl) ?_
      simp only [Reading.offer, if_neg comma]
      rfl
  · refine stands.congr meets (fun _ => rfl) ?_
    rw [← Reading.startExpr_eq_offer]
    simp only [Reading.offer]
    rfl

theorem follows_forStatement {fuel : Nat} (reads : ReadsStmt whole stmt bound)
    (enough : ts.list.length ≤ fuel) (deep : ts.list.length ≤ bound) (stands : At whole r now ts)
    (meets : Meets now ts t) (word : t.lexeme = .keyword .forWord)
    (offer : ({ r with now } : Reading).offer t = r.go (.looping t.position)) :
    Follows whole r (Shiba.Stmt.forStatement stmt fuel) ts fun s rest =>
      rest.list.length < ts.list.length ∧ At whole (r.add s) .start rest := by
  have past := stands.take meets (by rw [word]; nofun) offer
  have fewer := past.fewer
  refine Follows.bind (Follows.consume_known meets.front word nofun ?_)
  refine Follows.andThen (follows_loopNames? past.stands) fun found ts₁ names => ?_
  rcases found with - | ⟨counter, element⟩
  · obtain ⟨rfl, header⟩ := names
    exact follows_headed (.loop t.position) reads (by omega) (by omega) header (fun _ _ => rfl)
      fun condition body rest fewer₁ closed => Follows.pure ⟨by omega, closed.run⟩
  · obtain ⟨fewer₁, header⟩ := names
    exact follows_headed (.forIn t.position · counter element) reads (by omega) (by omega) header
      (fun _ _ => rfl) fun target body rest fewer₂ closed => Follows.pure ⟨by omega, closed.run⟩

theorem follows_returnStatement {fuel : Nat} (enough : ts.list.length ≤ fuel)
    (stands : At whole r now ts) (meets : Meets now ts t) (word : t.lexeme = .keyword .returnWord)
    (offer : ({ r with now } : Reading).offer t = r.go (.returning t.position)) :
    Follows whole r (Shiba.Stmt.returnStatement fuel) ts fun s rest =>
      rest.list.length < ts.list.length ∧ At whole (r.add s) .start rest := by
  have past := stands.take meets (by simp [word]) offer
  have fewer := past.fewer
  refine Follows.bind (Follows.consume_known meets.front word (by simp) ?_)
  refine Follows.bind (Follows.peek past.stands rfl fun t₁ ts₁ shorter meets₁ stands₁ => ?_)
  split
  · rename_i ends
    refine Follows.pure ⟨by omega, stands₁.finish meets₁ ?_⟩
    simp only [Reading.offer, if_pos ends]
    rfl
  · rename_i goesOn
    have other : t₁.lexeme ≠ .newline := by
      intro newline
      simp [newline, endsAt] at goesOn
    have starts := stands₁.startExpr meets₁ other (by simp only [Reading.offer, if_neg goesOn]; rfl)
    refine Follows.andThen (reads_parse fuel .plain [] ts₁ (by omega) trivial starts)
      fun e rest after => ?_
    obtain ⟨fewer₁, valued⟩ := after
    obtain ⟨t₂, meets₂, finished⟩ := valued.finished
    exact Follows.pure ⟨by omega, valued.stands.finish meets₂ finished⟩

/-! ## Statements -/

/-- A token that is a statement by itself. -/
theorem At.single {s : Stmt} (stands : At whole r .start ts) (front : ts.front = .ok t)
    (more : t.lexeme ≠ .eof) (begin : r.begin t = .ok (r.add s)) :
    ts.rest.list.length < ts.list.length ∧ At whole (r.add s) .start ts.rest := by
  refine ⟨Tokens.length_rest_lt front more, ?_⟩
  refine (Reading.run_of_advance_ok front more ?_).symm.trans stands
  rw [Reading.advance_start rfl]
  exact begin

theorem reads_parseLevel {fuel : Nat} (reads : ReadsStmt whole stmt fuel) :
    ReadsStmt whole (Shiba.Stmt.parseLevel stmt (fuel + 1)) (fuel + 1) := by
  intro r ts t enough front other ends brace stands
  have meets : Meets .start ts t := ⟨front, fun newline => absurd newline other⟩
  refine Follows.bind (Follows.peek_known front Follows.settled_plain ?_)
  split
  · rename_i text comment
    refine Follows.bind (Follows.next_known front Follows.settled_plain (Follows.pure ?_))
    exact stands.single front ends (by simp only [Reading.begin, comment])
  · rename_i word
    have past := stands.take meets ends (by simp only [Reading.offer, Reading.begin, word]; rfl)
    have fewer := past.fewer
    refine Follows.bind (Follows.next_known front Follows.settled_plain ?_)
    refine Follows.andThen (follows_importPath (fuel + 1) (by omega) past.stands)
      fun target rest after => ?_
    obtain ⟨fewer₁, left⟩ := after
    exact Follows.pure ⟨by omega, left⟩
  · rename_i word
    refine Follows.andThen (follows_functionDecl none reads (by omega) (by omega) stands meets word
      (by simp only [Reading.offer, Reading.begin, word]; rfl)) fun decl rest after => ?_
    obtain ⟨fewer, closed⟩ := after
    refine Follows.pure ⟨fewer, ?_⟩
    cases decl
    exact closed.run
  · rename_i word
    exact follows_structDeclaration reads (by omega) (by omega) stands meets word
      (by simp only [Reading.offer, Reading.begin, word]; rfl)
  · rename_i word
    exact follows_ifStatement reads (by omega) (by omega) stands meets word
      (by simp only [Reading.offer, Reading.begin, word]; rfl)
  · rename_i word
    exact follows_forStatement reads (by omega) (by omega) stands meets word
      (by simp only [Reading.offer, Reading.begin, word]; rfl)
  · rename_i word
    exact follows_returnStatement (by omega) stands meets word
      (by simp only [Reading.offer, Reading.begin, word]; rfl)
  · rename_i word
    refine Follows.bind (Follows.next_known front Follows.settled_plain (Follows.pure ?_))
    exact stands.single front ends (by simp only [Reading.begin, word])
  · rename_i word
    refine Follows.bind (Follows.next_known front Follows.settled_plain (Follows.pure ?_))
    exact stands.single front ends (by simp only [Reading.begin, word])
  · refine follows_simpleStatement (fuel + 1) enough (stands.startExpr meets other ?_)
    simp only [Reading.offer, Reading.begin]
    split
    · exact absurd ‹_› other
    · exact absurd ‹_› ends
    · rename_i closes
      rcases r with ⟨outer, before, now⟩
      obtain rfl : outer = [] := brace closes
      rfl
    all_goals first | rfl | exact absurd ‹_› (by solve_by_elim)

/-- Statements are followed with all the blocks in them. -/
theorem reads_stmt (whole : Program) (fuel : Nat) : ReadsStmt whole (Shiba.Stmt.parse fuel) fuel := by
  induction fuel with
  | zero => exact fun r ts t enough => absurd enough (Nat.not_lt_zero _)
  | succ fuel ih => exact reads_parseLevel ih

end Shiba.Stepwise

namespace Shiba.Program

open Shiba.Stepwise

/-- What a call for a statement leaves of a whole program: nothing but its end, or what is left behind the
statement. -/
def Leaves (whole : Program) (before : Block) (ts : Tokens) : Except Position Stmt → Tokens → Prop
  | .error place, _ => whole = ⟨before, .complete place⟩
  | .ok s, rest => rest.list.length < ts.list.length ∧
    (⟨[], before ++ [s], .start⟩ : Reading).run rest = whole

/-- The statements of a program are read one after another. -/
theorem run_start_eq (bound fuel : Nat) (before : Block) {ts : Tokens}
    (enough : ts.list.length < fuel) (deep : ts.list.length < bound) :
    (⟨[], before, .start⟩ : Reading).run ts =
      ⟨before ++ (ofTokensWith bound fuel ts).statements, (ofTokensWith bound fuel ts).ending⟩ := by
  induction fuel generalizing ts before with
  | zero => omega
  | succ fuel ih =>
    generalize program : (⟨[], before, .start⟩ : Reading).run ts = whole
    have stands : At whole ⟨[], before, .start⟩ .start ts := program
    have follows :
        Follows whole ⟨[], before, .start⟩ (statement? bound) ts (Leaves whole before ts) := by
      refine Follows.bind (Follows.skipNewlines stands rfl fun t ts₁ _ shorter front other stands₁ => ?_)
      have meets : Meets .start ts₁ t := ⟨front, fun newline => absurd newline other⟩
      refine Follows.bind (Follows.peek_known front Follows.settled_plain ?_)
      split
      · rename_i ends
        refine Follows.pure (stands₁.stop meets ?_)
        simp only [Reading.offer, Reading.begin, ends]
      · rename_i more
        refine Follows.andThen (reads_stmt whole bound _ ts₁ t (by omega) front other more
          (fun _ => rfl) stands₁) fun s rest after => ?_
        obtain ⟨fewer, left⟩ := after
        exact Follows.pure ⟨by omega, left⟩
    unfold ofTokensWith
    unfold Follows at follows
    split at follows
    · rename_i found rest answer
      rw [answer]
      cases found with
      | error place => simpa [Leaves] using follows
      | ok s =>
        obtain ⟨fewer, left⟩ := follows
        rw [← left, ih (before ++ [s]) (by omega) (by omega)]
        simp [cons]
    · rename_i failure answer
      rw [answer, follows]
      simp [Reading.done]

/-- Reading token by token makes the program that parsing makes. -/
theorem ofTokens_eq_run (ts : Tokens) : ofTokens ts = Reading.initial.run ts :=
  (run_start_eq (ts.list.length + 1) (ts.list.length + 1) [] (Nat.lt_succ_self _)
    (Nat.lt_succ_self _)).symm

end Shiba.Program

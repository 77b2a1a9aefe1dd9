import Shiba.Proofs.Stepwise.Steps

/-!
# Which brackets are open

`Nesting` tells from the tokens alone which brackets are open behind them and what they enclose.  A
parenthesis and a square bracket need no thought.  A brace opens a block where a header has begun, such a
header can be over, and no bracket is open; any other brace is that of a dictionary or of a struct
initialiser.

The module shows that this is what is read.  `Reading.enclosures` are the brackets that a reading has open,
and `Tracks` ties the two together, step by step (`Reading.advance_tracks`).  So where the tokens say that a
bracket encloses what comes next, newlines are skipped (`Tracks.skips`).
-/

namespace Shiba

/-! ## Told from the tokens -/

/-- What an open bracket encloses. -/
inductive Enclosure where
  /-- What stands in parentheses or in square brackets. -/
  | bracket
  /-- The entries of a dictionary, or the fields of a struct initialiser. -/
  | braces
  /-- The statements of a block, or the members of a struct. -/
  | block
deriving DecidableEq

namespace Lexeme

/-- The words that begin a header, behind which a block has to come. -/
def beginsHeader : Lexeme → Bool
  | .keyword .ifWord | .keyword .elifWord | .keyword .elseWord | .keyword .forWord
  | .keyword .defWord | .keyword .structWord => true
  | _ => false

/-- The tokens a header can end with: an operand, the parameters of a function, or a word that needs no
condition. -/
def endsHeader : Lexeme → Bool
  | .ident _ | .string _ | .number _ | .keyword .trueWord | .keyword .falseWord | .keyword .elseWord
  | .punct .rightParen | .punct .rightBracket | .punct .rightBrace => true
  | _ => false

end Lexeme

/-- What the tokens before a place say of the brackets around it. -/
structure Nesting where
  /-- The open brackets, the innermost first. -/
  opened : List Enclosure
  /-- A header has begun, and its block has not. -/
  heading : Bool
  /-- The header can be over. -/
  headed : Bool
deriving DecidableEq

namespace Nesting

/-- Before the first token. -/
def start : Nesting := ⟨[], false, false⟩

/-- Whether a parenthesis, a square bracket, or a brace of a dictionary or a struct initialiser is open. -/
def enclosed (n : Nesting) : Bool := n.opened.any (· ≠ .block)

/-- Whether a brace opens a block. -/
def awaitsBlock (n : Nesting) : Bool := n.heading && n.headed && !n.enclosed

/-- Behind one more token. -/
def take (n : Nesting) (l : Lexeme) : Nesting :=
  match l with
  | .newline => n
  | .punct .leftParen | .punct .leftBracket => ⟨.bracket :: n.opened, n.heading, false⟩
  | .punct .leftBrace =>
    if n.awaitsBlock then ⟨.block :: n.opened, false, false⟩ else ⟨.braces :: n.opened, n.heading, false⟩
  | .punct .rightParen | .punct .rightBracket | .punct .rightBrace => ⟨n.opened.tail, n.heading, true⟩
  | l => ⟨n.opened, l.beginsHeader || n.heading, l.endsHeader⟩

end Nesting

namespace Stepwise

open Shiba.Expr (unaryOp? binaryOp?)
open Shiba.Stmt (assignOp? endsAt)

/-! ## Told from a reading -/

/-- What a bracket of an expression encloses. -/
def Bracket.enclosure : Bracket → Enclosure
  | .paren | .list .. | .call .. | .index .. | .bound .. => .bracket
  | .key .. | .value .. | .field .. => .braces

/-- The brackets that are open around an expression. -/
def enclosures : List Pending → List Enclosure
  | [] => []
  | .bracket _ b :: pending => b.enclosure :: enclosures pending
  | _ :: pending => enclosures pending

/-- The bracket whose next item an expression goes on with. -/
def Look.enclosures : Look → List Enclosure
  | .item _ b => [b.enclosure]
  | .field .. | .colon .. => [.braces]
  | _ => []

/-- A method stands in the braces of its struct. -/
def hostEnclosures : Option Members → List Enclosure
  | none => []
  | some _ => [.block]

/-- The brackets of a statement that are open. -/
def Now.enclosures : Now → List Enclosure
  | .expr _ pending look => look.enclosures ++ Stepwise.enclosures pending
  | .param host .. | .paramEnd host .. => .bracket :: hostEnclosures host
  | .functionName host .. | .functionParen host .. | .functionBrace host .. => hostEnclosures host
  | .members _ => [.block]
  | _ => []

/-- The braces of a block, and those around it that belong to the same statement. -/
def Owner.enclosures : Owner → List Enclosure
  | .function host .. => .block :: hostEnclosures host
  | _ => [.block]

/-- The brackets that are open around the statement that is read. -/
def Reading.around (r : Reading) : List Enclosure := r.outer.flatMap (·.1.enclosures)

/-- The brackets that are open in a reading. -/
def Reading.enclosures (r : Reading) : List Enclosure := r.now.enclosures ++ r.around

/-- Whether an expression belongs to a header. -/
def Head.heads : Head → Bool
  | .list _ | .result _ => false
  | .condition .. | .loop _ | .target .. => true

/-- Whether a header is read. -/
def Now.heads : Now → Bool
  | .expr head .. => head.heads
  | .functionName .. | .functionParen .. | .param .. | .paramEnd .. | .functionBrace .. | .structName _
  | .structBrace .. | .looping _ | .counter .. | .counterComma .. | .element .. | .otherwise .. => true
  | _ => false

/-- Whether what has been read of an expression can be over, where a brace can come. -/
def Look.headed? : Look → Option Bool
  | .operand _ | .item .. | .field .. => some false
  | .name .. | .suffix .. | .value .. => some true
  | .member .. | .colon .. => none

/-- Whether a header can be over, where a brace can come. -/
def Now.headed? : Now → Option Bool
  | .expr _ _ look => look.headed?
  | .looping _ => some false
  | .functionBrace .. | .structBrace .. | .counter .. | .otherwise .. => some true
  | _ => none

/-- The mode is the one that belongs to the brackets around it: outside them, that of a header or of a line
of its own. -/
def Fits (heading : Bool) : Mode → List Pending → Prop
  | mode, [] => mode = if heading then .heading else .plain
  | mode, .bracket outside _ :: pending => mode = .bracketed ∧ Fits heading outside pending
  | mode, _ :: pending => Fits heading mode pending

/-- An expression is read in the modes that belong to its brackets. -/
def Look.Fits (heading : Bool) (pending : List Pending) : Look → Prop
  | .operand mode | .name mode _ _ | .suffix mode _ | .value mode _ | .member mode _ _
  | .item mode _ | .field mode .. | .colon mode .. => Stepwise.Fits heading mode pending

/-- Tokens tell of the brackets around an expression what has been read of it; `around` are the brackets
around the statement. -/
structure TracksExpr (n : Nesting) (header : Bool) (around : List Enclosure) (pending : List Pending)
    (look : Look) : Prop where
  opened : n.opened = look.enclosures ++ enclosures pending ++ around
  heading : n.heading = header
  headed : ∀ b ∈ look.headed?, n.headed = b
  fits : look.Fits header pending

/-- What has been read is read in the modes that belong to its brackets. -/
def Now.Fits : Now → Prop
  | .expr head pending look => look.Fits head.heads pending
  | _ => True

/-- Tokens tell of the brackets around a place what has been read. -/
structure Tracks (n : Nesting) (r : Reading) : Prop where
  opened : n.opened = r.enclosures
  heading : n.heading = r.now.heads
  headed : ∀ b ∈ r.now.headed?, n.headed = b
  fits : r.now.Fits

/-- Where no header can be over, nothing is asked of it. -/
theorem headed_of_none {headed : Bool} : ∀ b ∈ (none : Option Bool), headed = b :=
  fun b member => absurd member (Option.not_mem_none b)

/-! ## Expressions -/

/-- What a token does to an expression is what its tokens tell of the brackets. -/
def Move.Tracked (n : Nesting) (header : Bool) (around : List Enclosure) : Move → Prop
  | .take pending look => TracksExpr n header around pending look
  | _ => True

variable {n : Nesting} {header : Bool} {around : List Enclosure} {mode outside : Mode}
  {pending : List Pending} {look : Look} {e : Expr} {t : Token}

/-- An operator opens and closes nothing, and an operand has to come behind it. -/
theorem take_operator {l : Lexeme}
    (isOp : (binaryOp? l).isSome ∨ (unaryOp? l).isSome ∨ (assignOp? l).isSome) :
    n.take l = ⟨n.opened, n.heading, false⟩ := by
  cases l with
  | punct mark => cases mark <;> first | rfl | exact absurd isOp (by decide)
  | _ => simp [binaryOp?, unaryOp?, assignOp?] at isOp

theorem take_binaryOp {l : Lexeme} {op : BinaryOp} (isOp : binaryOp? l = some op) :
    n.take l = ⟨n.opened, n.heading, false⟩ := take_operator (.inl (by rw [isOp]; rfl))

/-- A brace that does not open a block is one of an expression. -/
theorem take_leftBrace (expr : n.awaitsBlock = false) :
    n.take (.punct .leftBrace) = ⟨.braces :: n.opened, n.heading, false⟩ := by
  simp [Nesting.take, expr]

/-- The brackets of an expression enclose no block. -/
theorem enclosed_of_mode (fits : Fits header mode pending) (inside : mode.header = false)
    (head : header = true) : ∃ b, b ∈ enclosures pending ∧ b ≠ .block := by
  induction pending with
  | nil =>
    rw [Fits, if_pos head] at fits
    rw [fits] at inside
    cases inside
  | cons frame pending ih =>
    cases frame with
    | unary | binary => exact ih fits
    | bracket _ b => exact ⟨b.enclosure, List.mem_cons_self, by cases b <;> nofun⟩

section

variable {b : Bracket} (heading : n.heading = header)
  (opened : n.opened = b.enclosure :: (enclosures pending ++ around)) (fits : Fits header outside pending)

include heading opened fits

theorem Bracket.comma?_tracked (comma : b.comma? outside e = some look) :
    TracksExpr (n.take (.punct .comma)) header around pending look := by
  cases b <;> cases comma <;> exact ⟨opened, heading, fun _ => Option.some.inj, fits⟩

theorem Bracket.closing_tracked :
    (b.closing outside e pending).Tracked (n.take (.punct b.wanted)) header around := by
  have closed : n.opened.tail = enclosures pending ++ around := by rw [opened]; rfl
  cases b with
  | key => exact ⟨opened, heading, fun _ => Option.some.inj, rfl, fits⟩
  | _ => exact ⟨closed, heading, fun _ => Option.some.inj, fits⟩

/-- A bracket is closed by the mark behind its last item, or goes on behind a comma or a colon. -/
theorem Bracket.behind_tracked : (b.behind outside e pending t).Tracked (n.take t.lexeme) header around := by
  unfold Bracket.behind
  split
  · rename_i isComma comma
    rw [isComma]
    exact comma?_tracked heading opened fits comma
  · rename_i isColon
    rw [isColon]
    exact ⟨opened, heading, fun _ => Option.some.inj, fits⟩
  · split
    · rename_i isWanted
      rw [isWanted]
      exact closing_tracked heading opened fits
    · trivial

end

section

variable (heading : n.heading = header) (opened : n.opened = enclosures pending ++ around)
  (fits : Fits header mode pending)

include heading opened fits

theorem primaryMove_tracked (expr : n.awaitsBlock = false) :
    (primaryMove mode pending t).Tracked (n.take t.lexeme) header around := by
  have pushed (b : Enclosure) : b :: n.opened = b :: (enclosures pending ++ around) := by rw [opened]
  unfold primaryMove Move.fail
  split
  case h_1 isLexeme =>
    rw [isLexeme]
    repeat' split
    · exact ⟨opened, heading, fun _ => Option.some.inj, fits⟩
    · trivial
    · exact ⟨opened, heading, fun _ => Option.some.inj, fits⟩
    · trivial
  case h_6 isLexeme =>
    rw [isLexeme]
    exact ⟨pushed _, heading, fun _ => Option.some.inj, rfl, fits⟩
  case h_7 isLexeme =>
    rw [isLexeme]
    exact ⟨pushed _, heading, fun _ => Option.some.inj, fits⟩
  case h_8 isLexeme =>
    rw [isLexeme, take_leftBrace expr]
    exact ⟨pushed _, heading, fun _ => Option.some.inj, fits⟩
  case h_9 => trivial
  all_goals
    rename_i isLexeme
    rw [isLexeme]
    exact ⟨opened, heading, fun _ => Option.some.inj, fits⟩

theorem operandMove_tracked (expr : n.awaitsBlock = false) :
    (operandMove mode pending t).Tracked (n.take t.lexeme) header around := by
  unfold operandMove
  split
  · next isOp =>
    rw [take_operator (.inr (.inl (by rw [isOp]; rfl)))]
    exact ⟨opened, heading, fun _ => Option.some.inj, fits⟩
  · exact primaryMove_tracked heading opened fits expr

/-- Operators that bind at least as tightly as the token are passed, and none of them is a bracket. -/
theorem valueMove_tracked : (valueMove mode e pending t).Tracked (n.take t.lexeme) header around := by
  induction pending generalizing e with
  | nil =>
    simp only [valueMove]
    split
    · next isOp =>
      rw [take_binaryOp isOp]
      exact ⟨opened, heading, fun _ => Option.some.inj, fits⟩
    · trivial
  | cons frame pending ih =>
    cases frame with
    | unary p op => exact ih opened fits
    | binary p op left =>
      simp only [valueMove]
      split
      · next isOp =>
        split
        · rw [take_binaryOp isOp]
          exact ⟨opened, heading, fun _ => Option.some.inj, fits⟩
        · exact ih opened fits
      · exact ih opened fits
    | bracket outside b =>
      simp only [valueMove]
      split
      · next isOp =>
        rw [take_binaryOp isOp]
        exact ⟨opened, heading, fun _ => Option.some.inj, fits⟩
      · exact Bracket.behind_tracked heading opened fits.2

theorem suffixMove_tracked : (suffixMove mode e pending t).Tracked (n.take t.lexeme) header around := by
  have pushed (b : Enclosure) : b :: n.opened = b :: (enclosures pending ++ around) := by rw [opened]
  unfold suffixMove
  split
  case h_4 => exact valueMove_tracked heading opened fits
  case h_3 isLexeme =>
    rw [isLexeme]
    exact ⟨opened, heading, headed_of_none, fits⟩
  all_goals
    rename_i isLexeme
    rw [isLexeme]
    exact ⟨pushed _, heading, fun _ => Option.some.inj, fits⟩

end

theorem itemMove_tracked {b : Bracket} (heading : n.heading = header)
    (opened : n.opened = b.enclosure :: (enclosures pending ++ around))
    (fits : Fits header outside pending) (expr : n.awaitsBlock = false) :
    (itemMove outside b pending t).Tracked (n.take t.lexeme) header around := by
  have closed : n.opened.tail = enclosures pending ++ around := by rw [opened]; rfl
  unfold itemMove
  split
  · next e isClosed =>
    unfold Bracket.closed? at isClosed
    split at isClosed
    all_goals cases isClosed
    all_goals
      rename_i isLexeme
      rw [isLexeme]
      exact ⟨closed, heading, fun _ => Option.some.inj, fits⟩
  · split
    · rename_i isColon _
      rw [isColon]
      exact ⟨opened, heading, fun _ => Option.some.inj, fits⟩
    · exact operandMove_tracked heading opened ⟨rfl, fits⟩ expr

/-- Where an operand has to come, a brace is none of a block. -/
theorem awaitsBlock_of_headed (headed : n.headed = false) : n.awaitsBlock = false := by
  simp [Nesting.awaitsBlock, headed]

/-- Behind a name, a brace is that of a struct initialiser unless a header is over. -/
theorem awaitsBlock_of_mode (heading : n.heading = header)
    (opened : n.opened = enclosures pending ++ around) (fits : Fits header mode pending)
    (inside : mode.header = false) : n.awaitsBlock = false := by
  cases header with
  | false => simp [Nesting.awaitsBlock, heading]
  | true =>
    obtain ⟨b, member, other⟩ := enclosed_of_mode fits inside rfl
    have enclosed : n.enclosed = true := by
      rw [Nesting.enclosed, List.any_eq_true]
      exact ⟨b, opened ▸ List.mem_append_left _ member, by simpa using other⟩
    simp [Nesting.awaitsBlock, enclosed]

theorem Look.move_tracked (tracks : TracksExpr n header around pending look) :
    (look.move pending t).Tracked (n.take t.lexeme) header around := by
  obtain ⟨opened, heading, headed, fits⟩ := tracks
  cases look with
  | operand mode => exact operandMove_tracked heading opened fits (awaitsBlock_of_headed (headed _ rfl))
  | item outside b => exact itemMove_tracked heading opened fits (awaitsBlock_of_headed (headed _ rfl))
  | name mode p x =>
    simp only [Look.move]
    split
    · next brace =>
      rw [brace.1, take_leftBrace (awaitsBlock_of_mode heading opened fits brace.2)]
      refine ⟨?_, heading, fun _ => Option.some.inj, fits⟩
      rw [opened]
      rfl
    · exact suffixMove_tracked heading opened fits
  | suffix mode e => exact suffixMove_tracked heading opened fits
  | value mode e => exact valueMove_tracked heading opened fits
  | member mode p e =>
    simp only [Look.move]
    split
    · next isLexeme =>
      rw [isLexeme]
      exact ⟨opened, heading, fun _ => Option.some.inj, fits⟩
    · trivial
  | field outside p x brace before =>
    simp only [Look.move]
    split
    · next isLexeme =>
      rw [isLexeme]
      exact ⟨by rw [Nesting.take, opened]; rfl, heading, fun _ => Option.some.inj, fits⟩
    · next isLexeme =>
      rw [isLexeme]
      exact ⟨opened, heading, headed_of_none, fits⟩
    · trivial
  | colon outside p x brace before f =>
    simp only [Look.move]
    split
    · next isLexeme =>
      rw [isLexeme]
      exact ⟨opened, heading, fun _ => Option.some.inj, rfl, fits⟩
    · trivial

/-- No bracket is open when an expression is over. -/
theorem enclosures_of_closed {e' : Expr} (closed : closed? pending e = some e') :
    enclosures pending = [] := by
  induction pending generalizing e with
  | nil => rfl
  | cons frame pending ih =>
    cases frame with
    | unary | binary => exact ih closed
    | bracket => cases closed

/-- An expression that is over can be over, and has no bracket open. -/
theorem Look.of_finished (finished : look.move pending t = .finished e) :
    look.enclosures ++ Stepwise.enclosures pending = [] ∧ look.headed? = some true := by
  have ended := Look.move_finished finished
  cases look with
  | name | suffix | value => exact ⟨enclosures_of_closed ended, rfl⟩
  | _ => cases ended

/-! ## Statements -/

namespace Reading

variable {r : Reading} {head : Head}

/-- A step leads to a reading of whose brackets its tokens tell. -/
def Tracked (n : Nesting) : Except Program Reading → Prop
  | .ok r => Tracks n r
  | .error _ => True

/-- An expression starts. -/
theorem startExpr_tracked (opened : n.opened = r.around) (heading : n.heading = head.heads)
    (isMode : mode = if head.heads then .heading else .plain) (expr : n.awaitsBlock = false) :
    Tracked (n.take t.lexeme) (r.startExpr head mode t) := by
  have fits : Fits head.heads mode [] := isMode
  have tracked := operandMove_tracked (t := t)  heading opened fits expr
  unfold startExpr
  split
  · rename_i same
    rw [same] at tracked
    obtain ⟨opened', heading', headed', fits'⟩ := tracked
    exact ⟨opened', heading', headed', fits'⟩
  · trivial
  · trivial

/-- Where no header is read, a brace is none of a block. -/
theorem awaitsBlock_of_heading (heading : n.heading = false) : n.awaitsBlock = false := by
  simp [Nesting.awaitsBlock, heading]

/-- A block ends, and what it belongs to goes on. -/
theorem closeBlock_tracked {owner : Owner} {body : Block} {headed : Bool}
    (opened : n.opened = owner.enclosures ++ r.around) (heading : n.heading = false) :
    Tracks ⟨n.opened.tail, n.heading, headed⟩ (closeBlock r body owner) := by
  rw [opened]
  cases owner with
  | function host =>
    cases host with
    | none => exact ⟨rfl, heading, headed_of_none, trivial⟩
    | some m => exact ⟨rfl, heading, headed_of_none, trivial⟩
  | branch | otherwise | loop | forIn => exact ⟨rfl, heading, headed_of_none, trivial⟩

theorem begin_tracked (opened : n.opened = r.around) (heading : n.heading = false) :
    Tracked (n.take t.lexeme) (r.begin t) := by
  unfold begin
  split
  case h_2 => split <;> trivial
  case h_3 isLexeme =>
    split
    · exact startExpr_tracked opened heading rfl (awaitsBlock_of_heading heading)
    · rw [isLexeme]
      rename_i outer isOuter
      have inside : n.opened = _ := opened
      rw [around, isOuter] at inside
      exact closeBlock_tracked inside heading
  case h_13 => exact startExpr_tracked opened heading rfl (awaitsBlock_of_heading heading)
  case h_6 isLexeme | h_7 isLexeme =>
    rw [isLexeme]
    exact ⟨opened, rfl, headed_of_none, trivial⟩
  case h_8 isLexeme =>
    rw [isLexeme]
    exact ⟨opened, rfl, fun _ => Option.some.inj, rfl⟩
  case h_9 isLexeme =>
    rw [isLexeme]
    exact ⟨opened, rfl, fun _ => Option.some.inj, trivial⟩
  all_goals
    rename_i isLexeme
    rw [isLexeme]
    exact ⟨opened, heading, headed_of_none, trivial⟩

/-- The brace of a block that a header awaits. -/
theorem expectBlock_tracked {owner : Owner} (opened : n.opened = owner.enclosures.tail ++ r.around)
    (awaits : n.awaitsBlock = true) : Tracked (n.take t.lexeme) (r.expectBlock owner t) := by
  unfold expectBlock
  split
  · next isBrace =>
    rw [isBrace]
    have taken : n.take (.punct .leftBrace) = ⟨.block :: n.opened, false, false⟩ := by
      simp [Nesting.take, awaits]
    rw [taken, opened]
    refine ⟨?_, rfl, headed_of_none, trivial⟩
    cases owner <;> rfl
  · trivial

theorem endList_tracked {side : Side} (opened : n.opened = r.around) (heading : n.heading = false) :
    Tracked (n.take t.lexeme) (r.endList e t side) := by
  cases side with
  | left before =>
    simp only [endList]
    split
    · next isOp =>
      rw [take_operator (.inr (.inr (by rw [isOp]; rfl)))]
      exact ⟨opened, heading, headed_of_none, trivial⟩
    · split
      · trivial
      · exact begin_tracked opened heading
  | right => exact begin_tracked opened heading

/-- What stands around a statement is blocks. -/
theorem eq_block_of_mem_around {b : Enclosure} (member : b ∈ r.around) : b = .block := by
  obtain ⟨level, -, inside⟩ := List.mem_flatMap.1 member
  cases owner : level.1 with
  | function host =>
    rw [owner] at inside
    cases host <;> simpa [Owner.enclosures, hostEnclosures] using inside
  | _ =>
    rw [owner] at inside
    simpa [Owner.enclosures] using inside

/-- A header that is over awaits its block. -/
theorem awaitsBlock_of_around (host : Option Members)
    (opened : n.opened = hostEnclosures host ++ r.around) (heading : n.heading = true)
    (headed : n.headed = true) : n.awaitsBlock = true := by
  have free : n.enclosed = false := by
    rw [Nesting.enclosed, opened, List.any_eq_false]
    intro b member
    rcases List.mem_append.1 member with inHost | inAround
    · cases host with
      | none => cases inHost
      | some m => simp [hostEnclosures] at inHost; simp [inHost]
    · simp [eq_block_of_mem_around inAround]
  simp [Nesting.awaitsBlock, heading, headed, free]

theorem behindExpr_tracked (opened : n.opened = r.around) (heading : n.heading = head.heads)
    (headed : n.headed = true) : Tracked (n.take t.lexeme) (r.behindExpr e t head) := by
  cases head with
  | list side =>
    simp only [behindExpr]
    split
    · next isComma =>
      rw [isComma]
      exact ⟨opened, heading, headed_of_none, trivial⟩
    · exact endList_tracked opened heading
  | result p => exact begin_tracked opened heading
  | condition | loop | target =>
    exact expectBlock_tracked opened (awaitsBlock_of_around none opened heading headed)

theorem inExpr_tracked (tracks : TracksExpr n head.heads r.around pending look) :
    Tracked (n.take t.lexeme) (r.inExpr head pending look t) := by
  have tracked := Look.move_tracked (t := t) tracks
  unfold inExpr
  split
  · next same =>
    rw [same] at tracked
    obtain ⟨opened', heading', headed', fits'⟩ := tracked
    exact ⟨opened', heading', headed', fits'⟩
  · trivial
  · next same =>
    obtain ⟨none, ended⟩ := Look.of_finished same
    obtain ⟨opened, heading, headed, -⟩ := tracks
    rw [none] at opened
    exact behindExpr_tracked opened heading (headed true ended)

theorem expectName_tracked {next : String → Now} (step : ∀ name,
    Tracks (n.take (.ident name)) { r with now := next name }) :
    Tracked (n.take t.lexeme) (r.expectName next t) := by
  unfold expectName
  split
  · next isName =>
    rw [isName]
    exact step _
  · trivial

theorem expectMark_tracked {mark : Punctuator} {now : Now}
    (step : Tracks (n.take (.punct mark)) { r with now }) :
    Tracked (n.take t.lexeme) (r.expectMark mark now t) := by
  unfold expectMark
  split
  · next isMark =>
    rw [isMark]
    exact step
  · trivial

theorem offer_tracked (tracks : Tracks n r) : Tracked (n.take t.lexeme) (r.offer t) := by
  rcases r with ⟨outer, before, now⟩
  obtain ⟨opened, heading, headed, fits⟩ := tracks
  cases now with
  | start => exact begin_tracked opened heading
  | expr head pending look => exact inExpr_tracked ⟨opened, heading, headed, fits⟩
  | more side e =>
    simp only [offer]
    split
    · exact endList_tracked opened heading
    · exact startExpr_tracked opened heading rfl (awaitsBlock_of_heading heading)
  | assigning p op left =>
    simp only [offer]
    split
    · trivial
    · exact startExpr_tracked opened heading rfl (awaitsBlock_of_heading heading)
  | importPart p parts =>
    simp only [offer]
    split
    · next isSlash =>
      rw [isSlash]
      exact ⟨opened, heading, headed_of_none, trivial⟩
    · exact begin_tracked opened heading
  | importSlash p parts => exact expectName_tracked fun name => ⟨opened, heading, headed_of_none, trivial⟩
  | functionName host p => exact expectName_tracked fun name => ⟨opened, heading, headed_of_none, trivial⟩
  | functionParen host p name =>
    exact expectMark_tracked ⟨congrArg (Enclosure.bracket :: ·) opened, heading, headed_of_none, trivial⟩
  | param host p name params =>
    simp only [offer]
    split
    · next isParen =>
      rw [isParen]
      exact ⟨congrArg List.tail opened, heading, fun _ => Option.some.inj, trivial⟩
    · exact expectName_tracked fun name => ⟨opened, heading, headed_of_none, trivial⟩
  | paramEnd host p name params =>
    simp only [offer]
    split
    · next isComma =>
      rw [isComma]
      exact ⟨opened, heading, headed_of_none, trivial⟩
    · exact expectMark_tracked ⟨congrArg List.tail opened, heading, fun _ => Option.some.inj, trivial⟩
  | functionBrace host p name params =>
    exact expectBlock_tracked opened (awaitsBlock_of_around host opened heading (headed true rfl))
  | structName p => exact expectName_tracked fun name => ⟨opened, heading, fun _ => Option.some.inj, trivial⟩
  | structBrace p name =>
    have awaits := awaitsBlock_of_around none opened heading (headed true rfl)
    have taken : n.take (.punct .leftBrace) = ⟨.block :: n.opened, false, false⟩ := by
      simp [Nesting.take, awaits]
    apply expectMark_tracked
    rw [taken]
    exact ⟨congrArg (Enclosure.block :: ·) opened, rfl, headed_of_none, trivial⟩
  | members m =>
    simp only [offer]
    split
    case h_1 isBrace =>
      rw [isBrace]
      exact ⟨congrArg List.tail opened, heading, headed_of_none, trivial⟩
    case h_5 isDef =>
      rw [isDef]
      exact ⟨opened, rfl, headed_of_none, trivial⟩
    case h_6 => trivial
    all_goals
      rename_i isLexeme
      rw [isLexeme]
      exact ⟨opened, heading, headed_of_none, trivial⟩
  | returning p =>
    simp only [offer]
    split
    · exact begin_tracked opened heading
    · exact startExpr_tracked opened heading rfl (awaitsBlock_of_heading heading)
  | looping p =>
    simp only [offer]
    split
    · next isName =>
      rw [isName]
      exact ⟨opened, heading, fun _ => Option.some.inj, trivial⟩
    · exact startExpr_tracked opened heading rfl (awaitsBlock_of_headed (headed false rfl))
  | counter p counter =>
    simp only [offer]
    split
    · next isComma =>
      rw [isComma]
      exact ⟨opened, heading, headed_of_none, trivial⟩
    · exact inExpr_tracked ⟨opened, heading, headed, rfl⟩
  | counterComma p counter comma =>
    simp only [offer]
    split
    · next isName =>
      rw [isName]
      exact ⟨opened, heading, headed_of_none, trivial⟩
    · trivial
  | element p counter comma element =>
    simp only [offer]
    split
    · next isIn =>
      rw [isIn]
      exact ⟨opened, heading, fun _ => Option.some.inj, rfl⟩
    · trivial
  | branches p before =>
    simp only [offer]
    split
    · next isElif =>
      rw [isElif]
      exact ⟨opened, rfl, fun _ => Option.some.inj, rfl⟩
    · next isElse =>
      rw [isElse]
      exact ⟨opened, rfl, fun _ => Option.some.inj, trivial⟩
    · exact begin_tracked opened heading
  | otherwise p branches =>
    exact expectBlock_tracked opened (awaitsBlock_of_around none opened heading (headed true rfl))
  | importing p =>
    simp only [offer]
    split
    case h_3 => trivial
    all_goals
      rename_i isLexeme
      rw [isLexeme]
      exact ⟨opened, heading, headed_of_none, trivial⟩

theorem advance_tracks (tracks : Tracks n r) (t : Token) : Tracked (n.take t.lexeme) (r.advance t) := by
  unfold advance
  split
  · next skipped =>
    rw [skipped.1]
    exact tracks
  · exact offer_tracked tracks

end Reading

/-! ## Newlines inside brackets -/

/-- Inside the brackets of an expression newlines are skipped. -/
theorem multiline_of_enclosed {b : Enclosure} (fits : Fits header mode pending)
    (member : b ∈ enclosures pending) : mode.multiline = true := by
  induction pending with
  | nil => cases member
  | cons frame pending ih =>
    cases frame with
    | unary | binary => exact ih fits member
    | bracket =>
      rw [fits.1]
      rfl

/-- Where the tokens say that a bracket encloses what comes next, newlines are skipped. -/
theorem Tracks.skips {r : Reading} (tracks : Tracks n r) (enclosed : n.enclosed = true) :
    r.now.skips = true := by
  obtain ⟨b, member, other⟩ := List.any_eq_true.1 enclosed
  have other : b ≠ .block := by simpa using other
  rw [tracks.opened] at member
  rcases List.mem_append.1 member with inNow | inAround
  · have fits := tracks.fits
    rcases r with ⟨outer, before, now⟩
    cases now with
    | expr head pending look =>
      rcases List.mem_append.1 inNow with inLook | inPending
      · cases look with
        | item | field | colon => rfl
        | _ => cases inLook
      · cases look with
        | item | field | colon => rfl
        | _ => exact multiline_of_enclosed fits inPending
    | param | paramEnd | functionParen => rfl
    | functionName host | functionBrace host =>
      cases host with
      | none => cases inNow
      | some m => exact absurd (List.mem_singleton.1 inNow) other
    | members => rfl
    | _ => cases inNow
  · exact absurd (Reading.eq_block_of_mem_around inAround) other

/-- Nothing is open at the start. -/
theorem tracks_initial : Tracks .start .initial := ⟨rfl, rfl, headed_of_none, trivial⟩

end Stepwise

end Shiba

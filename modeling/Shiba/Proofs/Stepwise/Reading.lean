import Shiba.Program

/-!
# Reading a program token by token

A parser says what becomes of a whole text.  What becomes of a text that is not all there yet is told
by a `Reading`: the blocks, brackets and operators that are open after some tokens, and what is looked
for next.  `Reading.advance` takes one token, and the end of input is a token like the others.

* `Pending` is what is open around an expression, the innermost first: operators that wait for their
  right operand, and brackets.  `Look` is what the expression goes on with.
* `Now` is what of a statement has been read, and `Owner` what a block belongs to that is still open.
* `Reading.advance` answers the next reading, or the program that the text makes when it is over, with
  the statements that were complete.
* `Reading.run` reads a whole sequence of tokens.

The module beside this one shows that reading token by token makes the same program as parsing.
-/

namespace Shiba.Stepwise

open Shiba.Expr (unaryOp? binaryOp?)
open Shiba.Stmt (assignOp? endsAt)

/-! ## Expressions -/

/-- An open bracket, with what was read in it before the expression that is read now. -/
inductive Bracket where
  | paren
  | list (place : Position) (before : List Expr)
  | call (place : Position) (callee : Expr) (before : List Expr)
  | key (place : Position) (before : List (Expr × Expr))
  | value (place : Position) (before : List (Expr × Expr)) (key : Expr)
  | field (place : Position) (name : String) (brace : Position) (before : List (Ident × Expr))
      (field : Ident)
  | index (place : Position) (target : Expr)
  | bound (place : Position) (target : Expr) (first : Option Expr)

/-- What is open around an expression.  A bracket keeps the mode of what stands outside it. -/
inductive Pending where
  | unary (place : Position) (op : UnaryOp)
  | binary (place : Position) (op : BinaryOp) (left : Expr)
  | bracket (outside : Mode) (b : Bracket)

/-- What an expression goes on with. -/
inductive Look where
  /-- An operand has to come. -/
  | operand (mode : Mode)
  /-- The next item of a bracket, or the mark that closes it. -/
  | item (outside : Mode) (b : Bracket)
  /-- Behind a name, which a struct initialiser can start with. -/
  | name (mode : Mode) (place : Position) (name : String)
  /-- Behind an operand, to which a suffix can be added. -/
  | suffix (mode : Mode) (e : Expr)
  /-- Behind an operand with all its suffixes. -/
  | value (mode : Mode) (e : Expr)
  /-- Behind a dot, a name has to come. -/
  | member (mode : Mode) (place : Position) (e : Expr)
  /-- The next field of a struct initialiser, or the brace that closes it. -/
  | field (outside : Mode) (place : Position) (name : String) (brace : Position)
      (before : List (Ident × Expr))
  /-- Behind the name of a field, a colon has to come. -/
  | colon (outside : Mode) (place : Position) (name : String) (brace : Position)
      (before : List (Ident × Expr)) (field : Ident)

/-- What a token does to an expression: the expression goes on, the token cannot stand there, or the
expression is over and the token is none of it. -/
inductive Move where
  | take (pending : List Pending) (look : Look)
  | reject (failure : Source.Failure)
  | finished (e : Expr)

/-- A token that cannot stand where it does. -/
def Move.fail (fault : Source.Grammatical) (t : Token) : Move := .reject ⟨.grammatical fault, t.position⟩

/-- Whether newlines are skipped. -/
def Look.skips : Look → Bool
  | .operand mode | .name mode _ _ | .suffix mode _ | .value mode _ | .member mode _ _ => mode.multiline
  | .item .. | .field .. | .colon .. => true

/-- A token where an operand without unary operators has to come. -/
def primaryMove (mode : Mode) (pending : List Pending) (t : Token) : Move :=
  match t.lexeme with
  | .number text =>
    if text.toList.contains '.' then
      .take pending
        (.suffix mode (.literal t.position (.float (Decimal.ofDigits text.toList).toFloat)))
    else if Text.digitLimit < text.toList.length then .fail (.literalTooLong text) t
    else if Decimal.digitsValue text.toList ≤ Expr.greatestLiteral then
      .take pending
        (.suffix mode (.literal t.position (.int (Int64.ofNat (Decimal.digitsValue text.toList)))))
    else .fail (.literalOverflow text) t
  | .string value => .take pending (.suffix mode (.literal t.position (.str value)))
  | .keyword .trueWord => .take pending (.suffix mode (.literal t.position (.bool true)))
  | .keyword .falseWord => .take pending (.suffix mode (.literal t.position (.bool false)))
  | .ident name => .take pending (.name mode t.position name)
  | .punct .leftParen => .take (.bracket mode .paren :: pending) (.operand .bracketed)
  | .punct .leftBracket => .take pending (.item mode (.list t.position []))
  | .punct .leftBrace => .take pending (.item mode (.key t.position []))
  | found => .fail (.unexpected found) t

/-- A token where an operand has to come. -/
def operandMove (mode : Mode) (pending : List Pending) (t : Token) : Move :=
  match unaryOp? t.lexeme with
  | some op => .take (.unary t.position op :: pending) (.operand mode)
  | none => primaryMove mode pending t

/-- No expression is over where an operand has to come. -/
theorem operandMove_ne_finished {mode : Mode} {pending : List Pending} {t : Token} {e : Expr} :
    operandMove mode pending t ≠ .finished e := by
  unfold operandMove primaryMove Move.fail
  repeat' split
  all_goals exact Move.noConfusion

/-- The expression a bracket makes when it is closed before its next item. -/
def Bracket.closed? : Bracket → Lexeme → Option Expr
  | .list p before, .punct .rightBracket => some (.list p before)
  | .call p callee before, .punct .rightParen => some (.call p callee before)
  | .key p before, .punct .rightBrace => some (.dict p before)
  | .bound p target first, .punct .rightBracket => some (.slice p target first none)
  | _, _ => none

/-- A token where the next item of a bracket or its end has to come. -/
def itemMove (outside : Mode) (b : Bracket) (pending : List Pending) (t : Token) : Move :=
  match b.closed? t.lexeme with
  | some e => .take pending (.suffix outside e)
  | none =>
    match b, t.lexeme with
    | .index p target, .punct .colon => .take pending (.item outside (.bound p target none))
    | b, _ => operandMove .bracketed (.bracket outside b :: pending) t

/-- What a bracket becomes by a comma behind an item. -/
def Bracket.comma? (outside : Mode) (e : Expr) : Bracket → Option Look
  | .list p before => some (.item outside (.list p (before ++ [e])))
  | .call p callee before => some (.item outside (.call p callee (before ++ [e])))
  | .value p before k => some (.item outside (.key p (before ++ [(k, e)])))
  | .field p n brace before f => some (.field outside p n brace (before ++ [(f, e)]))
  | _ => none

/-- The mark that has to come behind the last item of a bracket. -/
def Bracket.wanted : Bracket → Punctuator
  | .paren | .call .. => .rightParen
  | .list .. | .index .. | .bound .. => .rightBracket
  | .key .. => .colon
  | .value .. | .field .. => .rightBrace

/-- What a bracket becomes by the mark it wants behind an item. -/
def Bracket.closing (outside : Mode) (e : Expr) (pending : List Pending) : Bracket → Move
  | .paren => .take pending (.suffix outside e)
  | .list p before => .take pending (.suffix outside (.list p (before ++ [e])))
  | .call p callee before => .take pending (.suffix outside (.call p callee (before ++ [e])))
  | .key p before => .take (.bracket outside (.value p before e) :: pending) (.operand .bracketed)
  | .value p before k => .take pending (.suffix outside (.dict p (before ++ [(k, e)])))
  | .field p n brace before f =>
    .take pending (.suffix outside (.structInit p n brace (before ++ [(f, e)])))
  | .index p target => .take pending (.suffix outside (.index p target e))
  | .bound p target first => .take pending (.suffix outside (.slice p target first (some e)))

/-- A token behind an item of a bracket. -/
def Bracket.behind (outside : Mode) (b : Bracket) (e : Expr) (pending : List Pending) (t : Token) :
    Move :=
  match t.lexeme, b.comma? outside e, b with
  | .punct .comma, some look, _ => .take pending look
  | .punct .colon, _, .index p target => .take pending (.item outside (.bound p target (some e)))
  | _, _, _ =>
    if t.lexeme = .punct b.wanted then b.closing outside e pending
    else .fail (.expected b.wanted.text t.lexeme) t

/-- A token behind an operand.  Operators that bind at least as tightly as the token get their right
operand first. -/
def valueMove (mode : Mode) (e : Expr) : List Pending → Token → Move
  | .unary p op :: pending, t => valueMove mode (.unary p op e) pending t
  | .binary p op left :: pending, t =>
    match binaryOp? t.lexeme with
    | some op' =>
      if op.level < op'.level then
        .take (.binary t.position op' e :: .binary p op left :: pending) (.operand mode)
      else valueMove mode (.binary p op left e) pending t
    | none => valueMove mode (.binary p op left e) pending t
  | .bracket outside b :: pending, t =>
    match binaryOp? t.lexeme with
    | some op => .take (.binary t.position op e :: .bracket outside b :: pending) (.operand mode)
    | none => b.behind outside e pending t
  | [], t =>
    match binaryOp? t.lexeme with
    | some op => .take [.binary t.position op e] (.operand mode)
    | none => .finished e

/-- A token behind an operand to which a suffix can be added. -/
def suffixMove (mode : Mode) (e : Expr) (pending : List Pending) (t : Token) : Move :=
  match t.lexeme with
  | .punct .leftParen => .take pending (.item mode (.call t.position e []))
  | .punct .leftBracket => .take pending (.item mode (.index t.position e))
  | .punct .dot => .take pending (.member mode t.position e)
  | _ => valueMove mode e pending t

/-- What a token does to an expression. -/
def Look.move (pending : List Pending) (t : Token) : Look → Move
  | .operand mode => operandMove mode pending t
  | .item outside b => itemMove outside b pending t
  | .name mode p n =>
    if t.lexeme = .punct .leftBrace ∧ mode.header = false then
      .take pending (.field mode p n t.position [])
    else suffixMove mode (.ident p n) pending t
  | .suffix mode e => suffixMove mode e pending t
  | .value mode e => valueMove mode e pending t
  | .member mode p e =>
    match t.lexeme with
    | .ident n => .take pending (.suffix mode (.select p e n))
    | found => .fail (.expected "IDENT" found) t
  | .field outside p n brace before =>
    match t.lexeme with
    | .punct .rightBrace => .take pending (.suffix outside (.structInit p n brace before))
    | .ident f => .take pending (.colon outside p n brace before ⟨t.position, f⟩)
    | found => .fail (.expected "IDENT" found) t
  | .colon outside p n brace before f =>
    if t.lexeme = .punct .colon then
      .take (.bracket outside (.field p n brace before f) :: pending) (.operand .bracketed)
    else .fail (.expected (Punctuator.colon.text) t.lexeme) t

/-! ## Statements -/

/-- A list of expressions, with those read before. -/
inductive Side where
  | left (before : List Expr)
  | right (place : Position) (op : AssignOp) (left before : List Expr)

/-- A list with one more expression. -/
def Side.push (e : Expr) : Side → Side
  | .left before => .left (before ++ [e])
  | .right p op targets before => .right p op targets (before ++ [e])

/-- What an expression of a statement is for. -/
inductive Head where
  | list (side : Side)
  | result (place : Position)
  | condition (place : Position) (before : List (Expr × Block))
  | loop (place : Position)
  | target (place : Position) (counter element : Ident)

/-- A struct declaration as far as it has been read. -/
structure Members where
  place : Position
  name : String
  fields : List String
  methods : List FunctionDecl

/-- What an open block belongs to.  A function is a method when it has a host. -/
inductive Owner where
  | function (host : Option Members) (place : Position) (name : String) (params : List String)
  | branch (place : Position) (before : List (Expr × Block)) (condition : Expr)
  | otherwise (place : Position) (branches : List (Expr × Block))
  | loop (place : Position) (condition : Expr)
  | forIn (place : Position) (target : Expr) (counter element : Ident)

/-- What of a statement has been read. -/
inductive Now where
  /-- Nothing: a statement can start, or a block can end. -/
  | start
  | expr (head : Head) (pending : List Pending) (look : Look)
  /-- Behind an expression of a list and a comma. -/
  | more (side : Side) (e : Expr)
  /-- Behind an assignment operator. -/
  | assigning (place : Position) (op : AssignOp) (left : List Expr)
  | importing (place : Position)
  /-- Behind a name of an import path. -/
  | importPart (place : Position) (parts : List String)
  /-- Behind a slash of an import path. -/
  | importSlash (place : Position) (parts : List String)
  | functionName (host : Option Members) (place : Position)
  | functionParen (host : Option Members) (place : Position) (name : String)
  /-- The next parameter, or the end of the parameters. -/
  | param (host : Option Members) (place : Position) (name : String) (before : List String)
  /-- Behind a parameter. -/
  | paramEnd (host : Option Members) (place : Position) (name : String) (params : List String)
  | functionBrace (host : Option Members) (place : Position) (name : String) (params : List String)
  | structName (place : Position)
  | structBrace (place : Position) (name : String)
  | members (m : Members)
  /-- Behind the word that returns. -/
  | returning (place : Position)
  /-- Behind the word that starts a loop. -/
  | looping (place : Position)
  /-- Behind a name that the header of a loop starts with. -/
  | counter (place : Position) (counter : Ident)
  /-- Behind such a name and a comma. -/
  | counterComma (place : Position) (counter : Ident) (comma : Position)
  /-- Behind two names with a comma between them. -/
  | element (place : Position) (counter : Ident) (comma : Position) (element : Ident)
  /-- Behind a block of a conditional, where a further branch may follow. -/
  | branches (place : Position) (before : List (Expr × Block))
  /-- Behind the word of the last branch. -/
  | otherwise (place : Position) (branches : List (Expr × Block))

/-- Whether newlines are skipped. -/
def Now.skips : Now → Bool
  | .start | .functionParen .. | .param .. | .paramEnd .. | .members .. | .branches .. => true
  | .expr _ _ look => look.skips
  | _ => false

/-- What has been read of a text: the open blocks, the innermost first, each with the statements that
stand before the one it belongs to; the statements of the innermost block; and what of the next one
has been read. -/
structure Reading where
  outer : List (Owner × Block)
  before : Block
  now : Now

namespace Reading

/-- Nothing has been read. -/
def initial : Reading := ⟨[], [], .start⟩

/-- The statements on the top level that are complete. -/
def done (r : Reading) : Block := r.outer.foldl (fun _ level => level.2) r.before

/-- A token that cannot stand where it does: the text is over. -/
def fail (r : Reading) (fault : Source.Grammatical) (place : Position) : Except Program Reading :=
  .error ⟨r.done, .failed ⟨.grammatical fault, place⟩⟩

/-- The reading goes on within its statement. -/
def go (r : Reading) (now : Now) : Except Program Reading := .ok { r with now }

/-- An expression starts with a token. -/
def startExpr (r : Reading) (head : Head) (mode : Mode) (t : Token) : Except Program Reading :=
  match operandMove mode [] t with
  | .take pending look => r.go (.expr head pending look)
  | .reject failure => .error ⟨r.done, .failed failure⟩
  | .finished _ => .error ⟨r.done, .failed ⟨.grammatical .nestingExhausted, t.position⟩⟩

/-- A statement is complete. -/
def add (r : Reading) (s : Stmt) : Reading := ⟨r.outer, r.before ++ [s], .start⟩

/-- A block starts. -/
def openBlock (r : Reading) (owner : Owner) : Reading := ⟨(owner, r.before) :: r.outer, [], .start⟩

/-- What a reading is when the innermost block ends, which `r` is without. -/
def closeBlock (r : Reading) (body : Block) : Owner → Reading
  | .function none p name params => r.add (.function (.mk p name params body))
  | .function (some m) p name params =>
    { r with now := .members { m with methods := m.methods ++ [.mk p name params body] } }
  | .branch p before condition => { r with now := .branches p (before ++ [(condition, body)]) }
  | .otherwise p branches => r.add (.conditional p branches (some body))
  | .loop p condition => r.add (.loop p condition body)
  | .forIn p target counter element => r.add (.forIn p target counter element body)

/-- A token between two statements. -/
def begin (r : Reading) (t : Token) : Except Program Reading :=
  match t.lexeme with
  | .newline => r.go .start
  | .eof =>
    match r.outer with
    | [] => .error ⟨r.before, .complete t.position⟩
    | _ :: _ => r.fail .unterminatedBlock t.position
  | .punct .rightBrace =>
    match r.outer with
    | [] => r.startExpr (.list (.left [])) .plain t
    | (owner, before) :: outer => .ok (closeBlock ⟨outer, before, .start⟩ r.before owner)
  | .comment text => .ok (r.add (.comment t.position text))
  | .keyword .importWord => r.go (.importing t.position)
  | .keyword .defWord => r.go (.functionName none t.position)
  | .keyword .structWord => r.go (.structName t.position)
  | .keyword .ifWord => r.go (.expr (.condition t.position []) [] (.operand .heading))
  | .keyword .forWord => r.go (.looping t.position)
  | .keyword .returnWord => r.go (.returning t.position)
  | .keyword .breakWord => .ok (r.add (.breakLoop t.position))
  | .keyword .continueWord => .ok (r.add (.continueLoop t.position))
  | _ => r.startExpr (.list (.left [])) .plain t

/-- A token behind a statement that it is none of. -/
def finish (r : Reading) (s : Stmt) (t : Token) : Except Program Reading := (r.add s).begin t

/-- A token that is none of a list of expressions, behind the last of them. -/
def endList (r : Reading) (e : Expr) (t : Token) : Side → Except Program Reading
  | .left before =>
    match assignOp? t.lexeme with
    | some op => r.go (.assigning t.position op (before ++ [e]))
    | none =>
      match before ++ [e] with
      | _ :: second :: _ => r.fail .assignmentExpected second.position
      | _ => r.finish (.expr e) t
  | .right p op left before => r.finish (.assign p op left (before ++ [e])) t

/-- A brace that opens a block has to come. -/
def expectBlock (r : Reading) (owner : Owner) (t : Token) : Except Program Reading :=
  if t.lexeme = .punct .leftBrace then .ok (r.openBlock owner)
  else r.fail (.expected Punctuator.leftBrace.text t.lexeme) t.position

/-- A token behind an expression that it is none of. -/
def behindExpr (r : Reading) (e : Expr) (t : Token) : Head → Except Program Reading
  | .list side =>
    if t.lexeme = .punct .comma then r.go (.more side e) else r.endList e t side
  | .result p => r.finish (.returnValue p (some e)) t
  | .condition p before => r.expectBlock (.branch p before e) t
  | .loop p => r.expectBlock (.loop p e) t
  | .target p counter element => r.expectBlock (.forIn p e counter element) t

/-- A token inside or behind an expression. -/
def inExpr (r : Reading) (head : Head) (pending : List Pending) (look : Look) (t : Token) :
    Except Program Reading :=
  match look.move pending t with
  | .take pending look => r.go (.expr head pending look)
  | .reject failure => .error ⟨r.done, .failed failure⟩
  | .finished e => r.behindExpr e t head

/-- A name has to come. -/
def expectName (r : Reading) (next : String → Now) (t : Token) : Except Program Reading :=
  match t.lexeme with
  | .ident name => r.go (next name)
  | found => r.fail (.expected "IDENT" found) t.position

/-- A mark has to come. -/
def expectMark (r : Reading) (mark : Punctuator) (next : Now) (t : Token) : Except Program Reading :=
  if t.lexeme = .punct mark then r.go next
  else r.fail (.expected mark.text t.lexeme) t.position

/-- What a token does that is no newline to be skipped. -/
def offer (r : Reading) (t : Token) : Except Program Reading :=
  match r.now with
  | .start => r.begin t
  | .expr head pending look => r.inExpr head pending look t
  | .more side e =>
    if (assignOp? t.lexeme).isSome || endsAt t.lexeme then r.endList e t side
    else r.startExpr (.list (side.push e)) .plain t
  | .assigning p op left =>
    if endsAt t.lexeme then r.fail (.rightSideMissing op.text t.lexeme) t.position
    else r.startExpr (.list (.right p op left [])) .plain t
  | .importing p =>
    match t.lexeme with
    | .string value => .ok (r.add (.importModule p value))
    | .ident name => r.go (.importPart p [name])
    | found => r.fail (.moduleNameExpected found) t.position
  | .importPart p parts =>
    if t.lexeme = .punct .slash then r.go (.importSlash p parts)
    else r.finish (.importModule p ("/".intercalate parts)) t
  | .importSlash p parts => r.expectName (fun name => .importPart p (parts ++ [name])) t
  | .functionName host p => r.expectName (fun name => .functionParen host p name) t
  | .functionParen host p name => r.expectMark .leftParen (.param host p name []) t
  | .param host p name before =>
    if t.lexeme = .punct .rightParen then r.go (.functionBrace host p name before)
    else r.expectName (fun param => .paramEnd host p name (before ++ [param])) t
  | .paramEnd host p name params =>
    if t.lexeme = .punct .comma then r.go (.param host p name params)
    else r.expectMark .rightParen (.functionBrace host p name params) t
  | .functionBrace host p name params => r.expectBlock (.function host p name params) t
  | .structName p => r.expectName (fun name => .structBrace p name) t
  | .structBrace p name => r.expectMark .leftBrace (.members ⟨p, name, [], []⟩) t
  | .members m =>
    match t.lexeme with
    | .punct .rightBrace => .ok (r.add (.structDecl m.place m.name m.fields m.methods))
    | .ident name => r.go (.members { m with fields := m.fields ++ [name] })
    | .punct .comma | .comment _ => r.go (.members m)
    | .keyword .defWord => r.go (.functionName (some m) t.position)
    | found => r.fail (.memberExpected m.name found) t.position
  | .returning p =>
    if endsAt t.lexeme then r.finish (.returnValue p none) t
    else r.startExpr (.result p) .plain t
  | .looping p =>
    match t.lexeme with
    | .ident name => r.go (.counter p ⟨t.position, name⟩)
    | _ => r.startExpr (.loop p) .heading t
  | .counter p counter =>
    if t.lexeme = .punct .comma then r.go (.counterComma p counter t.position)
    else r.inExpr (.loop p) [] (.name .heading counter.position counter.name) t
  | .counterComma p counter comma =>
    match t.lexeme with
    | .ident name => r.go (.element p counter comma ⟨t.position, name⟩)
    | _ => r.fail (.expected Punctuator.leftBrace.text (.punct .comma)) comma
  | .element p counter comma element =>
    if t.lexeme = .keyword .inWord then r.go (.expr (.target p counter element) [] (.operand .heading))
    else r.fail (.expected Punctuator.leftBrace.text (.punct .comma)) comma
  | .branches p before =>
    match t.lexeme with
    | .keyword .elifWord => r.go (.expr (.condition p before) [] (.operand .heading))
    | .keyword .elseWord => r.go (.otherwise p before)
    | _ => r.finish (.conditional p before none) t
  | .otherwise p branches => r.expectBlock (.otherwise p branches) t

/-- Takes one token: the reading that goes on, or the program when the text is over. -/
def advance (r : Reading) (t : Token) : Except Program Reading :=
  if t.lexeme = .newline ∧ r.now.skips = true then .ok r else r.offer t

/-- Takes a sequence of tokens, up to its end. -/
def run (r : Reading) (ts : Tokens) : Program := runFrom ts.ending ts.list r
where
  /-- Takes the tokens that are left. -/
  runFrom (ending : Ending) : List Token → Reading → Program
    | [], r =>
      match ending with
      | .complete place =>
        match r.advance ⟨.eof, place⟩ with
        | .error program => program
        | .ok r => ⟨r.done, .complete place⟩
      | .failed failure => ⟨r.done, .failed failure⟩
    | t :: list, r =>
      match r.advance t with
      | .error program => program
      | .ok r => runFrom ending list r

end Reading

end Shiba.Stepwise

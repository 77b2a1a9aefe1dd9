import Shiba.Expr.Parser
import Shiba.Proofs.RoundTrip.Taking

/-!
# How expressions are written

An expression is written as a sequence of tokens, with parentheses where the table of precedence asks
for them and, depending on the `Style`, in further places.

* `precedence` is the table, given by the spellings of the operators, and `Expr.rank` is how tightly an
  expression binds by it; the operators of one row associate to the left.
* `Expr.tokens st need e` writes `e` at a place where only something of rank `need` or more may stand
  without parentheses.
* `Expr.Writable` are the expressions that can be written: the names in them are no reserved words,
  and the literals are those that a token can spell.  A negative integer is written with an operator.
* `Expr.erase` forgets the positions, which no written form can keep.
-/

namespace Shiba

open Shiba.Parser (commas)

/-! ## Expressions up to positions -/

mutual

/-- An expression without its positions. -/
def Expr.erase : Expr → Expr
  | .literal _ value => .literal .start value
  | .list _ elements => .list .start (Expr.eraseAll elements)
  | .dict _ entries => .dict .start (Expr.eraseEntries entries)
  | .ident _ name => .ident .start name
  | .index _ target i => .index .start target.erase i.erase
  | .slice _ target first last =>
    .slice .start target.erase (Expr.eraseBound first) (Expr.eraseBound last)
  | .select _ target name => .select .start target.erase name
  | .unary _ op operand => .unary .start op operand.erase
  | .binary _ op left right => .binary .start op left.erase right.erase
  | .structInit _ name _ fields => .structInit .start name .start (Expr.eraseFields fields)
  | .call _ callee args => .call .start callee.erase (Expr.eraseAll args)

/-- Expressions without their positions. -/
def Expr.eraseAll : List Expr → List Expr
  | [] => []
  | e :: rest => e.erase :: Expr.eraseAll rest

/-- The entries of a dictionary without their positions. -/
def Expr.eraseEntries : List (Expr × Expr) → List (Expr × Expr)
  | [] => []
  | (key, value) :: rest => (key.erase, value.erase) :: Expr.eraseEntries rest

/-- The fields of a struct initialiser without their positions. -/
def Expr.eraseFields : List (Ident × Expr) → List (Ident × Expr)
  | [] => []
  | (field, value) :: rest => (⟨.start, field.name⟩, value.erase) :: Expr.eraseFields rest

/-- The bound of a slice without its positions. -/
def Expr.eraseBound : Option Expr → Option Expr
  | none => none
  | some e => some e.erase

end

/-- Two expressions that differ in positions only. -/
def Expr.Same (e e' : Expr) : Prop := e.erase = e'.erase

namespace Expr

theorem eraseAll_congr {es es' : List Expr} (same : List.Forall₂ Same es es') :
    eraseAll es = eraseAll es' := by
  induction same with
  | nil => rfl
  | cons here _ ih => rw [eraseAll, eraseAll, here, ih]

theorem eraseEntries_congr {entries entries' : List (Expr × Expr)}
    (same : List.Forall₂ (fun a b => Same a.1 b.1 ∧ Same a.2 b.2) entries entries') :
    eraseEntries entries = eraseEntries entries' := by
  induction same with
  | nil => rfl
  | cons here _ ih => rw [eraseEntries, eraseEntries, here.1, here.2, ih]

theorem eraseFields_congr {fields fields' : List (Ident × Expr)}
    (same : List.Forall₂ (fun a b => a.1.name = b.1.name ∧ Same a.2 b.2) fields fields') :
    eraseFields fields = eraseFields fields' := by
  induction same with
  | nil => rfl
  | cons here _ ih => rw [eraseFields, eraseFields, here.1, here.2, ih]

end Expr

/-! ## Precedence -/

/-- The table of precedence of the binary operators.  The operators of an earlier row bind less. -/
def precedence : List (List String) :=
  [["||"], ["&&"], ["==", "!="], ["<", "<=", ">", ">="], ["|"], ["^"], ["&"], ["<<", ">>"],
   ["+", "-"], ["*", "/", "%"]]

/-- The row of an operator in the table. -/
def BinaryOp.rank (op : BinaryOp) : Nat := precedence.findIdx (·.contains op.text)

/-- The parser follows the table. -/
theorem BinaryOp.rank_eq_level (op : BinaryOp) : op.rank = op.level := by cases op <;> decide

/-- Unary operators bind more tightly than all binary ones. -/
def unaryRank : Nat := precedence.length

theorem BinaryOp.rank_lt (op : BinaryOp) : op.rank < unaryRank := by
  rw [op.rank_eq_level]
  exact op.level_lt

/-- Calls, indices, slices and selections bind more tightly than unary operators. -/
def postfixRank : Nat := precedence.length + 1

/-- How tightly an expression binds. -/
def Expr.rank : Expr → Nat
  | .binary _ op _ _ => op.rank
  | .unary .. => unaryRank
  | _ => postfixRank

/-! ## Writing -/

/-- How expressions are written. -/
structure Style where
  /-- The expressions that are put in parentheses although they need none. -/
  extra : Expr → Bool
  /-- The digits of a float. -/
  decimal : Float → String

/-- The style with parentheses only where they are needed. -/
def Style.minimal (decimal : Float → String) : Style := ⟨fun _ => false, decimal⟩

/-- The expressions that cannot be taken apart by what stands around them. -/
def Expr.standsAlone : Expr → Bool
  | .literal .. | .ident .. | .list .. | .dict .. => true
  | _ => false

/-- A style that puts all operations and struct initialisers in parentheses, and perhaps more. -/
def Style.Full (st : Style) : Prop := ∀ e : Expr, e.standsAlone = false → st.extra e = true

/-- The style that puts just those in parentheses. -/
def Style.full (decimal : Float → String) : Style := ⟨fun e => !e.standsAlone, decimal⟩

theorem Style.isFull_full (decimal : Float → String) : (Style.full decimal).Full :=
  fun e compound => by simp [Style.full, compound]

/-- Tokens in parentheses. -/
def inParens (ls : List Lexeme) : List Lexeme := .punct .leftParen :: (ls ++ [.punct .rightParen])

/-- The tokens of `e`, which are `ls`, where only something of rank `need` or more can stand by
itself. -/
def Style.wrap (st : Style) (need : Nat) (e : Expr) (ls : List Lexeme) : List Lexeme :=
  if e.rank < need || st.extra e then inParens ls else ls

/-- The token of a literal. -/
def Literal.lexeme (decimal : Float → String) : Literal → Lexeme
  | .int n => .number n.toNatClampNeg.repr
  | .float x => .number (decimal x)
  | .str s => .string s
  | .bool true => .keyword .trueWord
  | .bool false => .keyword .falseWord

mutual

/-- The tokens of an expression, without parentheses around it. -/
def Expr.bare (st : Style) : Expr → List Lexeme
  | .literal _ value => [value.lexeme st.decimal]
  | .list _ elements =>
    .punct .leftBracket :: (commas (Expr.bareAll st elements) ++ [.punct .rightBracket])
  | .dict _ entries =>
    .punct .leftBrace :: (commas (Expr.bareEntries st entries) ++ [.punct .rightBrace])
  | .ident _ name => [.ident name]
  | .index _ target i =>
    st.wrap postfixRank target (target.bare st) ++
      .punct .leftBracket :: (st.wrap 0 i (i.bare st) ++ [.punct .rightBracket])
  | .slice _ target first last =>
    st.wrap postfixRank target (target.bare st) ++
      .punct .leftBracket :: (Expr.bareBound st first ++
        .punct .colon :: (Expr.bareBound st last ++ [.punct .rightBracket]))
  | .select _ target name =>
    st.wrap postfixRank target (target.bare st) ++ [.punct .dot, .ident name]
  | .unary _ op operand => .punct op.mark :: st.wrap unaryRank operand (operand.bare st)
  | .binary _ op left right =>
    st.wrap op.rank left (left.bare st) ++
      .punct op.mark :: st.wrap (op.rank + 1) right (right.bare st)
  | .structInit _ name _ fields =>
    .ident name :: .punct .leftBrace :: (commas (Expr.bareFields st fields) ++ [.punct .rightBrace])
  | .call _ callee args =>
    st.wrap postfixRank callee (callee.bare st) ++
      .punct .leftParen :: (commas (Expr.bareAll st args) ++ [.punct .rightParen])

/-- The tokens of each of some expressions. -/
def Expr.bareAll (st : Style) : List Expr → List (List Lexeme)
  | [] => []
  | e :: rest => st.wrap 0 e (e.bare st) :: Expr.bareAll st rest

/-- The tokens of each entry of a dictionary. -/
def Expr.bareEntries (st : Style) : List (Expr × Expr) → List (List Lexeme)
  | [] => []
  | (key, value) :: rest =>
    (st.wrap 0 key (key.bare st) ++ .punct .colon :: st.wrap 0 value (value.bare st)) ::
      Expr.bareEntries st rest

/-- The tokens of each field of a struct initialiser. -/
def Expr.bareFields (st : Style) : List (Ident × Expr) → List (List Lexeme)
  | [] => []
  | (field, value) :: rest =>
    (.ident field.name :: .punct .colon :: st.wrap 0 value (value.bare st)) ::
      Expr.bareFields st rest

/-- The tokens of the bound of a slice. -/
def Expr.bareBound (st : Style) : Option Expr → List Lexeme
  | none => []
  | some e => st.wrap 0 e (e.bare st)

end

namespace Expr

/-- The tokens of an expression where something of rank `need` has to stand. -/
def tokens (st : Style) (need : Nat) (e : Expr) : List Lexeme := st.wrap need e (e.bare st)

/-- The tokens of an entry of a dictionary. -/
def entryTokens (st : Style) (entry : Expr × Expr) : List Lexeme :=
  entry.1.tokens st 0 ++ .punct .colon :: entry.2.tokens st 0

/-- The tokens of a field of a struct initialiser. -/
def fieldTokens (st : Style) (field : Ident × Expr) : List Lexeme :=
  .ident field.1.name :: .punct .colon :: field.2.tokens st 0

/-- The text of an expression: its tokens divided by blanks. -/
def text (st : Style) (e : Expr) : String := String.ofList (Lexeme.join (e.tokens st 0))

theorem bareAll_eq_map (st : Style) (es : List Expr) : bareAll st es = es.map (tokens st 0) := by
  induction es with
  | nil => rfl
  | cons e es ih => rw [bareAll, ih, List.map_cons, tokens]

theorem bareEntries_eq_map (st : Style) (entries : List (Expr × Expr)) :
    bareEntries st entries = entries.map (entryTokens st) := by
  induction entries with
  | nil => rfl
  | cons entry entries ih => rw [bareEntries, ih, List.map_cons, entryTokens, tokens, tokens]

theorem bareFields_eq_map (st : Style) (fields : List (Ident × Expr)) :
    bareFields st fields = fields.map (fieldTokens st) := by
  induction fields with
  | nil => rfl
  | cons field fields ih => rw [bareFields, ih, List.map_cons, fieldTokens, tokens]

section

variable (st : Style) (p q : Position) (e e' : Expr) (name : String)

theorem bare_list (es : List Expr) : (Expr.list p es).bare st =
    .punct .leftBracket :: (commas (es.map (tokens st 0)) ++ [.punct .rightBracket]) := by
  rw [bare, bareAll_eq_map]

theorem bare_dict (entries : List (Expr × Expr)) : (Expr.dict p entries).bare st =
    .punct .leftBrace :: (commas (entries.map (entryTokens st)) ++ [.punct .rightBrace]) := by
  rw [bare, bareEntries_eq_map]

theorem bare_structInit (fields : List (Ident × Expr)) : (Expr.structInit p name q fields).bare st =
    .ident name :: .punct .leftBrace ::
      (commas (fields.map (fieldTokens st)) ++ [.punct .rightBrace]) := by
  rw [bare, bareFields_eq_map]

theorem bare_call (args : List Expr) : (Expr.call p e args).bare st =
    e.tokens st postfixRank ++
      .punct .leftParen :: (commas (args.map (tokens st 0)) ++ [.punct .rightParen]) := by
  rw [bare, bareAll_eq_map, tokens]

theorem bare_index : (Expr.index p e e').bare st =
    e.tokens st postfixRank ++
      .punct .leftBracket :: (e'.tokens st 0 ++ [.punct .rightBracket]) := by
  rw [bare, tokens, tokens]

theorem bare_slice (first last : Option Expr) : (Expr.slice p e first last).bare st =
    e.tokens st postfixRank ++
      .punct .leftBracket :: (bareBound st first ++
        .punct .colon :: (bareBound st last ++ [.punct .rightBracket])) := by
  rw [bare, tokens]

theorem bare_select : (Expr.select p e name).bare st =
    e.tokens st postfixRank ++ [.punct .dot, .ident name] := by
  rw [bare, tokens]

theorem bare_unary (op : UnaryOp) : (Expr.unary p op e).bare st =
    .punct op.mark :: e.tokens st unaryRank := by
  rw [bare, tokens]

theorem bare_binary (op : BinaryOp) : (Expr.binary p op e e').bare st =
    e.tokens st op.rank ++ .punct op.mark :: e'.tokens st (op.rank + 1) := by
  rw [bare, tokens, tokens]

theorem bareBound_some : bareBound st (some e) = e.tokens st 0 := by
  rw [bareBound, tokens]

end

/-! ## What can be written -/

/-- A text of digits with a point that stands for a float. -/
def WritesFloat (digits : String) (x : Float) : Prop :=
  isNumber digits = true ∧ '.' ∈ digits.toList ∧ (Decimal.ofDigits digits.toList).toFloat = x

/-- The expressions that can be written, when `decimal` gives the digits of floats. -/
inductive Writable (decimal : Float → String) : Expr → Prop
  | int {p : Position} {n : Int64} : 0 ≤ n → Writable decimal (.literal p (.int n))
  | float {p : Position} {x : Float} :
    WritesFloat (decimal x) x → Writable decimal (.literal p (.float x))
  | str {p : Position} {s : String} : Writable decimal (.literal p (.str s))
  | bool {p : Position} {b : Bool} : Writable decimal (.literal p (.bool b))
  | list {p : Position} {elements : List Expr} :
    (∀ e ∈ elements, Writable decimal e) → Writable decimal (.list p elements)
  | dict {p : Position} {entries : List (Expr × Expr)} :
    (∀ entry ∈ entries, Writable decimal entry.1) → (∀ entry ∈ entries, Writable decimal entry.2) →
    Writable decimal (.dict p entries)
  | ident {p : Position} {name : String} :
    isName name = true → Writable decimal (.ident p name)
  | index {p : Position} {target index : Expr} :
    Writable decimal target → Writable decimal index → Writable decimal (.index p target index)
  | slice {p : Position} {target : Expr} {first last : Option Expr} :
    Writable decimal target → (∀ e ∈ first, Writable decimal e) → (∀ e ∈ last, Writable decimal e) →
    Writable decimal (.slice p target first last)
  | select {p : Position} {target : Expr} {name : String} :
    Writable decimal target → isName name = true → Writable decimal (.select p target name)
  | unary {p : Position} {op : UnaryOp} {operand : Expr} :
    Writable decimal operand → Writable decimal (.unary p op operand)
  | binary {p : Position} {op : BinaryOp} {left right : Expr} :
    Writable decimal left → Writable decimal right → Writable decimal (.binary p op left right)
  | structInit {p : Position} {name : String} {brace : Position} {fields : List (Ident × Expr)} :
    isName name = true → (∀ field ∈ fields, isName field.1.name = true) →
    (∀ field ∈ fields, Writable decimal field.2) →
    Writable decimal (.structInit p name brace fields)
  | call {p : Position} {callee : Expr} {args : List Expr} :
    Writable decimal callee → (∀ e ∈ args, Writable decimal e) →
    Writable decimal (.call p callee args)

/-! ## The tokens of an expression -/

theorem plain_mark (mark : Punctuator) : (Lexeme.punct mark).Plain := ⟨trivial, rfl⟩

theorem plain_ident {name : String} (valid : isName name = true) : (Lexeme.ident name).Plain :=
  ⟨valid, rfl⟩

theorem plain_tokens {st : Style} {e : Expr} (inside : ∀ l ∈ e.bare st, l.Plain) (need : Nat) :
    ∀ l ∈ e.tokens st need, l.Plain := by
  unfold tokens Style.wrap
  split
  · simpa [inParens, plain_mark, or_imp, forall_and] using inside
  · exact inside

theorem plain_commas {items : List (List Lexeme)}
    (inside : ∀ item ∈ items, ∀ l ∈ item, l.Plain) : ∀ l ∈ commas items, l.Plain := by
  induction items with
  | nil => simp [commas]
  | cons item items ih =>
    have later := ih fun item member => inside item (List.mem_cons_of_mem _ member)
    have here := inside item List.mem_cons_self
    cases items with
    | nil => rwa [Parser.commas_singleton]
    | cons item' items =>
      simp only [Parser.commas_cons_cons, List.forall_mem_append, List.forall_mem_cons]
      exact ⟨here, plain_mark _, later⟩

theorem plain_bound {st : Style} {bound : Option Expr}
    (inside : ∀ e ∈ bound, ∀ l ∈ e.bare st, l.Plain) : ∀ l ∈ bareBound st bound, l.Plain := by
  cases bound with
  | none => exact nofun
  | some e =>
    rw [bareBound_some]
    exact plain_tokens (inside e rfl) 0

theorem isNumber_repr (n : Nat) : isNumber n.repr = true := by
  obtain ⟨c, cs, digits⟩ := List.exists_cons_of_ne_nil (Nat.toDigits_ne_nil (n := n) (b := 10))
  have text : n.repr.toList = c :: cs := by rw [Nat.repr, String.toList_ofList, digits]
  have isDigit : ∀ d ∈ c :: cs, d.isDigit = true := by
    intro d member
    rw [← digits] at member
    exact Nat.isDigit_of_mem_toDigits (by decide) (by decide) member
  have noPoint : '.' ∉ c :: cs := fun member => absurd (isDigit '.' member) (by decide)
  refine isNumber_iff.2 ⟨c, cs, text, isDigit c List.mem_cons_self, ?_, ?_⟩
  · intro d member
    simp [Reader.isNumberChar, isDigit d member]
  · rw [List.count_eq_zero_of_not_mem noPoint]
    decide

theorem plain_bare {st : Style} {e : Expr} (writable : e.Writable st.decimal) :
    ∀ l ∈ e.bare st, l.Plain := by
  induction writable with
  | int _ => exact List.forall_mem_singleton.2 ⟨isNumber_repr _, rfl⟩
  | float spelled => exact List.forall_mem_singleton.2 ⟨spelled.1, rfl⟩
  | str => exact List.forall_mem_singleton.2 ⟨trivial, rfl⟩
  | @bool _ b => cases b <;> exact List.forall_mem_singleton.2 ⟨trivial, rfl⟩
  | ident valid => exact List.forall_mem_singleton.2 (plain_ident valid)
  | list _ ih =>
    have items := plain_commas (List.forall_mem_map.2 fun e member => plain_tokens (ih e member) 0)
    simpa [bare_list, plain_mark, or_imp, forall_and] using items
  | dict _ _ ihKey ihValue =>
    have items := plain_commas (List.forall_mem_map.2 fun entry member =>
      show ∀ l ∈ entryTokens st entry, l.Plain from List.forall_mem_append.2
        ⟨plain_tokens (ihKey entry member) 0,
          List.forall_mem_cons.2 ⟨plain_mark _, plain_tokens (ihValue entry member) 0⟩⟩)
    simpa [bare_dict, plain_mark, or_imp, forall_and] using items
  | structInit valid validFields _ ih =>
    have items := plain_commas (List.forall_mem_map.2 fun field member =>
      show ∀ l ∈ fieldTokens st field, l.Plain from List.forall_mem_cons.2
        ⟨plain_ident (validFields field member),
          List.forall_mem_cons.2 ⟨plain_mark _, plain_tokens (ih field member) 0⟩⟩)
    simpa [bare_structInit, plain_mark, plain_ident valid, or_imp, forall_and] using items
  | call _ _ ihCallee ih =>
    have callee := plain_tokens ihCallee postfixRank
    have items := plain_commas (List.forall_mem_map.2 fun e member => plain_tokens (ih e member) 0)
    simpa [bare_call, plain_mark, or_imp, forall_and] using And.intro callee items
  | index _ _ ihTarget ih =>
    have target := plain_tokens ihTarget postfixRank
    have inside := plain_tokens ih 0
    simpa [bare_index, plain_mark, or_imp, forall_and] using And.intro target inside
  | slice _ _ _ ihTarget ihFirst ihLast =>
    have target := plain_tokens ihTarget postfixRank
    have bounds := And.intro (plain_bound ihFirst) (plain_bound ihLast)
    simpa [bare_slice, plain_mark, or_imp, forall_and] using And.intro target bounds
  | select _ valid ih =>
    have target := plain_tokens ih postfixRank
    simpa [bare_select, plain_mark, plain_ident valid, or_imp, forall_and] using target
  | unary _ ih => simpa [bare_unary, plain_mark] using plain_tokens ih unaryRank
  | @binary _ op _ _ _ _ ihLeft ihRight =>
    have left := plain_tokens ihLeft op.rank
    have right := plain_tokens ihRight (op.rank + 1)
    simpa [bare_binary, plain_mark, or_imp, forall_and] using And.intro left right

/-- A written expression is read as its tokens. -/
theorem spells_text {st : Style} {e : Expr} (writable : e.Writable st.decimal) :
    (Tokens.ofText (e.text st)).Spells (e.tokens st 0) := by
  apply Lexeme.Joins.spells
  exact Lexeme.joins_of_plain (plain_tokens (plain_bare writable) 0)

/-- The tokens an operand without unary operators starts with. -/
def startsOperand : Lexeme → Bool
  | .number _ | .string _ | .ident _ | .keyword .trueWord | .keyword .falseWord
  | .punct .leftParen | .punct .leftBracket | .punct .leftBrace => true
  | _ => false

/-- The tokens with which something that binds at least as tightly as `need` can start: the first token
of an operand, or a unary operator. -/
def Starts (need : Nat) (l : Lexeme) : Prop :=
  startsOperand l = true ∨ need < postfixRank ∧ (unaryOp? l).isSome = true

theorem Starts.append {need : Nat} {ls : List Lexeme} (starts : Starts need (Lexeme.first ls))
    (rest : List Lexeme) : Starts need (Lexeme.first (ls ++ rest)) := by
  cases ls with
  | nil =>
    rcases starts with operand | unary
    · cases operand
    · cases unary.2
  | cons => exact starts

theorem Starts.ne {need : Nat} {l l' : Lexeme} (starts : Starts need l)
    (operand : startsOperand l' = false) (unary : unaryOp? l' = none) : l ≠ l' := by
  rintro rfl
  rcases starts with starts | starts
  · rw [operand] at starts
    cases starts
  · rw [unary] at starts
    cases starts.2

/-- How `e` can be written where only something of rank `need` or more can stand by itself. -/
def Fits (st : Style) (need : Nat) (e : Expr) (ls : List Lexeme) : Prop :=
  ls = inParens (e.bare st) ∨ need ≤ e.rank ∧ ls = e.bare st

theorem fits_tokens (st : Style) (need : Nat) (e : Expr) : e.Fits st need (e.tokens st need) := by
  unfold tokens Style.wrap
  split
  · exact .inl rfl
  · next unneeded =>
    simp only [Bool.or_eq_true, decide_eq_true_eq, not_or, Nat.not_lt] at unneeded
    exact .inr ⟨unneeded.1, rfl⟩

/-- An expression that binds like a unary operation is one, or binds more tightly. -/
theorem Fits.unary_cases {st : Style} {e : Expr} {ls : List Lexeme} (fits : e.Fits st unaryRank ls) :
    e.Fits st postfixRank ls ∨
      ∃ p op x, e = .unary p op x ∧ ls = .punct op.mark :: x.tokens st unaryRank := by
  rcases fits with parens | ⟨high, rfl⟩
  · exact .inl (.inl parens)
  · cases e with
    | unary p op x => exact .inr ⟨p, op, x, rfl, bare_unary ..⟩
    | binary _ op => exact absurd high (Nat.not_le.2 op.rank_lt)
    | _ => exact .inl (.inr ⟨Nat.le_refl _, rfl⟩)

/-- An expression that binds like the operations of one level is one, or binds more tightly. -/
theorem Fits.binary_cases {st : Style} {e : Expr} {ls : List Lexeme} {rank : Nat}
    (fits : e.Fits st rank ls) (low : rank < unaryRank) :
    e.Fits st (rank + 1) ls ∨ ∃ p op x y, e = .binary p op x y ∧ op.rank = rank ∧
      ls = x.tokens st rank ++ .punct op.mark :: y.tokens st (rank + 1) := by
  rcases fits with parens | ⟨high, rfl⟩
  · exact .inl (.inl parens)
  · rcases Nat.lt_or_eq_of_le high with above | same
    · exact .inl (.inr ⟨above, rfl⟩)
    · cases e with
      | binary p op x y =>
        have here : op.rank = rank := same.symm
        exact .inr ⟨p, op, x, y, rfl, here, by rw [bare_binary, here]⟩
      | unary => exact absurd same (Nat.ne_of_lt low)
      | _ => exact absurd same (Nat.ne_of_lt (Nat.lt_succ_of_lt low))

theorem tokens_cases_of_full {st : Style} (full : st.Full) (e : Expr) :
    e.tokens st 0 = inParens (e.bare st) ∨ e.standsAlone = true ∧ e.tokens st 0 = e.bare st := by
  unfold tokens Style.wrap
  split
  · exact .inl rfl
  · next plain =>
    simp only [Bool.or_eq_true, not_or] at plain
    refine .inr ⟨?_, rfl⟩
    cases alone : e.standsAlone with
    | false => exact absurd (full e alone) plain.2
    | true => rfl

theorem rank_of_standsAlone {e : Expr} (alone : e.standsAlone = true) : e.rank = postfixRank := by
  cases e with
  | unary | binary => cases alone
  | _ => rfl

theorem rank_le (e : Expr) : e.rank ≤ postfixRank := by
  cases e with
  | binary _ op _ _ =>
    rw [rank, op.rank_eq_level]
    exact Nat.le_trans (Nat.le_of_lt op.level_lt) (by decide)
  | unary => exact Nat.le_succ _
  | _ => exact Nat.le_refl _

theorem Fits.starts {st : Style} {need : Nat} {e : Expr} {ls : List Lexeme} (fits : e.Fits st need ls)
    (bare : Starts e.rank (Lexeme.first (e.bare st))) : Starts need (Lexeme.first ls) := by
  rcases fits with rfl | ⟨high, rfl⟩
  · exact .inl rfl
  · exact bare.imp_right fun below => ⟨Nat.lt_of_le_of_lt high below.1, below.2⟩

/-- The first token of an expression is that of its leftmost part. -/
theorem starts_bare {st : Style} {e : Expr} (writable : e.Writable st.decimal) :
    Starts e.rank (Lexeme.first (e.bare st)) := by
  induction writable with
  | int | float | str | ident | list | dict | structInit => exact .inl rfl
  | @bool _ b => cases b <;> exact .inl rfl
  | unary => exact .inr ⟨Nat.lt_succ_self _, by simp [bare_unary, Lexeme.first, unaryOp?]⟩
  | index _ _ ih | slice _ _ _ ih | call _ _ ih | select _ _ ih | binary _ _ ih =>
    simp only [bare_index, bare_slice, bare_call, bare_select, bare_binary]
    exact ((fits_tokens st _ _).starts ih).append _

theorem Starts.notUnary {l : Lexeme} (starts : Starts postfixRank l) : unaryOp? l = none := by
  rcases starts with operand | ⟨low, -⟩
  · unfold startsOperand at operand
    split at operand <;> first | rfl | cases operand
  · exact absurd low (Nat.lt_irrefl _)

theorem starts_tokens {st : Style} {e : Expr} (writable : e.Writable st.decimal) (need : Nat) :
    Starts need (Lexeme.first (e.tokens st need)) :=
  (fits_tokens st need e).starts (starts_bare writable)

end Expr

end Shiba

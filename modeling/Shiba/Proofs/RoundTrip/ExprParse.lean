import Mathlib.Data.Nat.Digits.Defs
import Shiba.Proofs.RoundTrip.ExprText

/-!
# Written expressions are read back

The parser of expressions takes the tokens of a written expression and answers that expression, up to
positions.  The proof follows the parser.

* `suffixing` is about what binds most tightly: behind an operand with its suffixes, the loop over
  suffixes is where it was, with the expression read so far in its hand.
* `takes_operand` adds the unary operators, by induction on the fuel of the loop that takes them.
* `chaining` is about the operators of one level, which associate to the left, and `reads_operation`
  goes through the levels by induction on their number.
* `reads_parse` ties the levels of brackets together, by induction on the fuel.
* `parse_minimal_text` is the statement about texts, and `takes_heading` the one about headers, where a
  name is not taken for the start of a struct initialiser.

A parser can only stop where the token behind an expression does not go on with it: `Stops`.
-/

namespace Shiba.Expr

open Shiba.Parser

/-! ## What stands behind an expression -/

/-- A token that does not go on with an expression that binds at least as tightly as `need`. -/
structure Stops (mode : Mode) (need : Nat) (l : Lexeme) : Prop where
  line : mode.multiline = true → l ≠ .newline
  brace : mode.header = false → l ≠ .punct .leftBrace
  suffix : l ≠ .punct .leftParen ∧ l ≠ .punct .leftBracket ∧ l ≠ .punct .dot
  operator : ∀ op, binaryOp? l = some op → op.rank < need

variable {st : Style} {nested : Parser Expr} {mode : Mode} {n fuel need need' : Nat}
  {e : Expr} {ls rest : List Lexeme} {l : Lexeme}

theorem Stops.mono (stops : Stops mode need l) (le : need ≤ need') : Stops mode need' l :=
  { stops with operator := fun op found => Nat.lt_of_lt_of_le (stops.operator op found) le }

/-- The marks that end an expression in brackets. -/
def closes : Punctuator → Bool
  | .rightParen | .rightBracket | .rightBrace | .comma | .colon => true
  | _ => false

theorem stops_closing : ∀ {mark : Punctuator}, closes mark = true → Stops mode need (.punct mark)
  | .rightParen, _ | .rightBracket, _ | .rightBrace, _ | .comma, _ | .colon, _ =>
    ⟨nofun, nofun, ⟨nofun, nofun, nofun⟩, nofun⟩

theorem stops_binary (op : BinaryOp) : Stops mode (op.rank + 1) (.punct op.mark) := by
  refine ⟨nofun, ?_, ?_, ?_⟩
  · cases op <;> nofun
  · cases op <;> exact ⟨nofun, nofun, nofun⟩
  · intro op' found
    rw [binaryOp?, BinaryOp.ofMark?_mark] at found
    cases found
    exact Nat.lt_succ_self _

theorem stops_eof : Stops mode need .eof := ⟨nofun, nofun, ⟨nofun, nofun, nofun⟩, nofun⟩

/-- A parser reads the expressions of less than `n` tokens that bind at least as tightly as `need`. -/
def Reads (st : Style) (parser : Parser Expr) (mode : Mode) (need n : Nat) : Prop :=
  ∀ ⦃e : Expr⦄ ⦃ls rest : List Lexeme⦄, e.Writable st.decimal → e.Fits st need ls → ls.length < n →
    Stops mode need (Lexeme.first rest) → parser.Takes ls rest (Same · e)

theorem Starts.ne_closing (starts : Starts need l) {mark : Punctuator}
    (closing : closes mark = true) : l ≠ .punct mark := by
  apply starts.ne <;> cases mark <;> first | rfl | cases closing

/-- Where an expression starts, no bracket is closed. -/
theorem notClosed_bind {β : Type} {mark : Punctuator} {f : Bool → Parser β} {next : Parser β → Prop}
    (writable : e.Writable st.decimal) (closing : closes mark = true)
    (goesOn : (f false).Leads (e.tokens st 0 ++ ls) rest next) :
    (atMark mode mark >>= f).Leads (e.tokens st 0 ++ ls) rest next := by
  have starts := (starts_tokens writable 0).append (ls ++ rest)
  rw [← List.append_assoc] at starts
  exact notAtMark_bind (fun _ => starts.ne rfl rfl) (starts.ne_closing closing) goesOn

/-! ## Literals and names -/

theorem digitsValue_repr (n : Nat) : Decimal.digitsValue n.repr.toList = n := by
  rw [Nat.repr, String.toList_ofList]
  exact Nat.ofDigitChars_toDigits (by decide) (by decide)

/-- An integer that is a word has few digits. -/
theorem length_repr_le (n : Int64) : n.toNatClampNeg.repr.toList.length ≤ Text.digitLimit := by
  have small : n.toNatClampNeg < 10 ^ 19 := Nat.lt_of_lt_of_le n.toNatClampNeg_lt (by decide)
  rw [Nat.repr, String.toList_ofList]
  exact Nat.le_trans (Nat.toDigits_length 10 _ 19 (by decide) small) (by decide)

theorem number_int {n : Int64} (nonnegative : 0 ≤ n) (t : Token) :
    number t n.toNatClampNeg.repr = pure (.literal t.position (.int n)) := by
  have noPoint : n.toNatClampNeg.repr.toList.contains '.' = false := by
    rw [List.contains_eq_mem, decide_eq_false_iff_not, Nat.repr, String.toList_ofList]
    intro point
    have digit := Nat.isDigit_of_mem_toDigits (by decide) (by decide) point
    cases digit
  have fitting : n.toNatClampNeg ≤ greatestLiteral := Nat.le_of_lt_succ n.toNatClampNeg_lt
  have short : ¬ Text.digitLimit < n.toNatClampNeg.repr.toList.length := Nat.not_lt.2 (length_repr_le n)
  simp only [number, noPoint, digitsValue_repr, if_neg short, if_pos fitting,
    Int64.ofNat_toNatClampNeg n nonnegative]
  rfl

theorem number_float {text : String} {x : Float} (writes : WritesFloat text x) (t : Token) :
    number t text = pure (.literal t.position (.float x)) := by
  have point : text.toList.contains '.' = true := by
    rw [List.contains_eq_mem, decide_eq_true_iff]
    exact writes.2.1
  simp only [number, point, if_true, writes.2.2]

instance {decimal : Float → String} {value : Literal} : Stays (value.lexeme decimal) where
  other := by
    rcases value with n | x | s | (_ | _) <;> simp [Literal.lexeme]

theorem takes_literal {p : Position} {value : Literal}
    (writable : (literal p value).Writable st.decimal) :
    (primary nested mode fuel).Takes ((literal p value).bare st) rest (Same · (.literal p value)) := by
  cases writable with
  | int nonnegative =>
    refine peek_bind_cons fun place => next_bind fun _ => ?_
    rw [number_int nonnegative]
    exact takes_pure rfl
  | float writes =>
    refine peek_bind_cons fun place => next_bind fun _ => ?_
    rw [number_float writes]
    exact takes_pure rfl
  | str => exact peek_bind_cons fun place => next_bind fun _ => takes_pure rfl
  | @bool _ b =>
    cases b with
    | false => exact peek_bind_cons fun place => next_bind fun _ => takes_pure rfl
    | true => exact peek_bind_cons fun place => next_bind fun _ => takes_pure rfl

theorem takes_name {p : Position} {name : String}
    (line : mode.multiline = true → Lexeme.first rest ≠ .newline)
    (brace : mode.header = false → Lexeme.first rest ≠ .punct .leftBrace) :
    (primary nested mode fuel).Takes [.ident name] rest (Same · (.ident p name)) := by
  refine peek_bind_cons fun place => next_bind fun _ => ?_
  by_cases opening : Lexeme.first rest = .punct .leftBrace
  · have header : mode.header = true := by
      rcases mode with ⟨multiline, _ | _⟩
      · exact absurd opening (brace rfl)
      · rfl
    refine atMark_bind opening ?_
    rw [header]
    exact takes_pure rfl
  · exact notAtMark_bind line opening (takes_pure rfl)

/-! ## The loop over suffixes -/

/-- Behind the tokens `ls` of `e`, the loop over suffixes has `e` in its hand and has used at most as
much fuel as there were tokens. -/
def Suffixing (nested : Parser Expr) (mode : Mode) (fuel : Nat) (e : Expr) (ls rest : List Lexeme) :
    Prop :=
  (primary nested mode fuel >>= suffixes nested mode fuel).Leads ls rest
    fun q => ∃ x left, x.Same e ∧ fuel ≤ left + ls.length ∧ q = suffixes nested mode left x

theorem suffixing_of_primary (takes : (primary nested mode fuel).Takes ls rest (Same · e)) :
    Suffixing nested mode fuel e ls rest := by
  apply takes.bind_last
  intro x same
  exact leads_self ⟨x, fuel, same, Nat.le_add_right _ _, rfl⟩

/-- One suffix more. -/
theorem Suffixing.step {e' : Expr} {l : Lexeme} {ls' : List Lexeme}
    (before : ls.length ≤ n → ls.length < fuel → Suffixing nested mode fuel e ls (l :: ls' ++ rest))
    (room : (ls ++ l :: ls').length ≤ n) (enough : (ls ++ l :: ls').length < fuel)
    (one : ∀ x left, x.Same e → ls'.length < left → ls'.length < n →
      (suffixes nested mode (left + 1) x).Leads (l :: ls') rest
        fun q => ∃ y, y.Same e' ∧ q = suffixes nested mode left y) :
    Suffixing nested mode fuel e' (ls ++ l :: ls') rest := by
  rw [List.length_append, List.length_cons] at room enough
  apply Leads.trans (before (by omega) (by omega))
  rintro q ⟨x, left, same, used, rfl⟩
  obtain ⟨left, rfl⟩ : ∃ k, left = k + 1 := ⟨left - 1, by omega⟩
  intro ts spells
  obtain ⟨q, ts', ⟨y, same', rfl⟩, spells', run⟩ := one x left same (by omega) (by omega) ts spells
  refine ⟨_, ts', ⟨y, left, same', ?_, rfl⟩, spells', run⟩
  rw [List.length_append, List.length_cons]
  omega

theorem suffixes_stop {x : Expr} (stops : Stops mode need (Lexeme.first rest)) :
    (suffixes nested mode (fuel + 1) x).Takes [] rest (· = x) := by
  refine peek_bind stops.line fun place => ?_
  simp only [List.nil_append]
  generalize Lexeme.first rest = l at stops
  split
  · exact absurd rfl stops.suffix.1
  · exact absurd rfl stops.suffix.2.1
  · exact absurd rfl stops.suffix.2.2
  · exact takes_pure rfl

theorem leads_select {p : Position} {x : Expr} {name : String} (same : x.Same e) :
    (suffixes nested mode (fuel + 1) x).Leads [.punct .dot, .ident name] rest
      fun q => ∃ y, y.Same (.select p e name) ∧ q = suffixes nested mode fuel y := by
  refine peek_bind_cons fun place => next_bind fun _ => consumeName_bind fun _ => ?_
  exact leads_self ⟨_, by rw [Same, erase, erase, same], rfl⟩

theorem leads_subscript {x y : Expr} {ls : List Lexeme}
    (takes : (subscript nested x).Takes (.punct .leftBracket :: ls) rest (Same · y)) :
    (suffixes nested mode (fuel + 1) x).Leads (.punct .leftBracket :: ls) rest
      fun q => ∃ z, z.Same y ∧ q = suffixes nested mode fuel z := by
  refine peek_bind_cons fun place => ?_
  apply takes.bind_last
  intro z same
  exact leads_self ⟨z, same, rfl⟩

/-! ## Brackets -/

section

variable (inside : Reads st nested .bracketed 0 n)

include inside

theorem takes_nested (writable : e.Writable st.decimal) (room : (e.tokens st 0).length < n)
    {mark : Punctuator} (closing : closes mark = true) :
    nested.Takes (e.tokens st 0) (.punct mark :: rest) (Same · e) :=
  inside writable (fits_tokens st 0 e) room (stops_closing closing)

/-- The last part of an item, behind which a comma or the closing mark stands. -/
theorem takes_before (writable : e.Writable st.decimal) (room : (e.tokens st 0).length < n)
    {close : Punctuator} (closing : closes close = true)
    (follows : Lexeme.first rest = .punct .comma ∨ Lexeme.first rest = .punct close) :
    nested.Takes (e.tokens st 0) rest (Same · e) := by
  apply inside writable (fits_tokens st 0 e) room
  rcases follows with comma | closed
  · rw [comma]
    exact stops_closing rfl
  · rw [closed]
    exact stops_closing closing

theorem items_elements (close : Punctuator) (closing : closes close = true) {es : List Expr}
    (writable : ∀ e ∈ es, e.Writable st.decimal)
    (room : (commas (es.map (tokens st 0))).length < n) :
    ∀ e ∈ es, Items nested close (tokens st 0) Same e := by
  intro e member
  have short := length_le_commas_of_mem (List.mem_map_of_mem (f := tokens st 0) member)
  have starts := starts_tokens (writable e member) 0
  refine ⟨⟨starts.ne rfl rfl, starts.ne rfl rfl, starts.ne_closing closing⟩, ?_⟩
  exact fun rest follows => takes_before inside (writable e member) (by omega) closing follows

theorem items_entries {entries : List (Expr × Expr)}
    (keys : ∀ entry ∈ entries, entry.1.Writable st.decimal)
    (values : ∀ entry ∈ entries, entry.2.Writable st.decimal)
    (room : (commas (entries.map (entryTokens st))).length < n) :
    ∀ entry ∈ entries, Items (dictEntry nested) .rightBrace (entryTokens st)
      (fun a b => Same a.1 b.1 ∧ Same a.2 b.2) entry := by
  intro entry member
  have short := length_le_commas_of_mem (List.mem_map_of_mem (f := entryTokens st) member)
  rw [entryTokens, List.length_append, List.length_cons] at short
  have starts := (starts_tokens (keys entry member) 0).append (.punct .colon :: entry.2.tokens st 0)
  refine ⟨⟨starts.ne rfl rfl, starts.ne rfl rfl, starts.ne_closing rfl⟩, ?_⟩
  intro rest follows
  apply (takes_nested inside (keys entry member) (by omega) rfl).bind
  intro key sameKey
  refine consumeMark_bind fun _ => ?_
  apply (takes_before inside (values entry member) (by omega) rfl follows).bind_last
  intro value sameValue
  exact takes_pure ⟨sameKey, sameValue⟩

theorem items_fields {fields : List (Ident × Expr)}
    (values : ∀ field ∈ fields, field.2.Writable st.decimal)
    (room : (commas (fields.map (fieldTokens st))).length < n) :
    ∀ field ∈ fields, Items (fieldEntry nested) .rightBrace (fieldTokens st)
      (fun a b => a.1.name = b.1.name ∧ Same a.2 b.2) field := by
  intro field member
  have short := length_le_commas_of_mem (List.mem_map_of_mem (f := fieldTokens st) member)
  rw [fieldTokens, List.length_cons, List.length_cons] at short
  refine ⟨by simp [fieldTokens, Lexeme.first], ?_⟩
  intro rest follows
  refine consumeName_bind fun _ => consumeMark_bind fun _ => ?_
  apply (takes_before inside (values field member) (by omega) rfl follows).bind_last
  intro value sameValue
  exact takes_pure ⟨rfl, sameValue⟩

theorem takes_parens (writable : e.Writable st.decimal) (room : (inParens (e.bare st)).length ≤ n) :
    (primary nested mode fuel).Takes (inParens (e.bare st)) rest (Same · e) := by
  rw [inParens, List.length_cons, List.length_append] at room
  refine peek_bind_cons fun place => next_bind fun _ => ?_
  apply (inside writable (.inr ⟨Nat.zero_le _, rfl⟩) (by omega) (stops_closing rfl)).bind
  intro x same
  exact consumeMark_bind fun _ => takes_pure same

theorem takes_list {p : Position} {es : List Expr} (writable : ∀ e ∈ es, e.Writable st.decimal)
    (room : ((list p es).bare st).length ≤ n) (enough : ((list p es).bare st).length < fuel) :
    (primary nested mode fuel).Takes ((list p es).bare st) rest (Same · (.list p es)) := by
  simp only [bare_list, List.length_cons, List.length_append, List.length_nil] at room enough ⊢
  have items := items_elements inside .rightBracket rfl writable (by omega)
  refine peek_bind_cons fun place => enclosed_bind (by decide) items (by omega) fun _ ys same => ?_
  exact takes_pure (congrArg (list .start) (eraseAll_congr same))

theorem takes_dict {p : Position} {entries : List (Expr × Expr)}
    (keys : ∀ entry ∈ entries, entry.1.Writable st.decimal)
    (values : ∀ entry ∈ entries, entry.2.Writable st.decimal)
    (room : ((dict p entries).bare st).length ≤ n)
    (enough : ((dict p entries).bare st).length < fuel) :
    (primary nested mode fuel).Takes ((dict p entries).bare st) rest (Same · (.dict p entries)) := by
  simp only [bare_dict, List.length_cons, List.length_append, List.length_nil] at room enough ⊢
  have items := items_entries inside keys values (by omega)
  refine peek_bind_cons fun place => enclosed_bind (by decide) items (by omega) fun _ ys same => ?_
  exact takes_pure (congrArg (dict .start) (eraseEntries_congr same))

theorem takes_structInit {p brace : Position} {name : String} {fields : List (Ident × Expr)}
    (plain : mode.header = false) (values : ∀ field ∈ fields, field.2.Writable st.decimal)
    (room : ((structInit p name brace fields).bare st).length ≤ n)
    (enough : ((structInit p name brace fields).bare st).length < fuel) :
    (primary nested mode fuel).Takes ((structInit p name brace fields).bare st) rest
      (Same · (.structInit p name brace fields)) := by
  simp only [bare_structInit, List.length_cons, List.length_append, List.length_nil]
    at room enough ⊢
  have items := items_fields inside values (by omega)
  refine peek_bind_cons fun place => next_bind fun _ => atMark_bind rfl ?_
  rw [plain]
  refine enclosed_bind (by decide) items (by omega) fun _ ys same => ?_
  exact takes_pure (congrArg (structInit .start name .start) (eraseFields_congr same))

/-! ## Suffixes -/

theorem leads_call {p : Position} {x : Expr} {args : List Expr} (same : x.Same e)
    (writable : ∀ e ∈ args, e.Writable st.decimal)
    (room : (commas (args.map (tokens st 0))).length < n)
    (enough : (commas (args.map (tokens st 0))).length < fuel) :
    (suffixes nested mode (fuel + 1) x).Leads
      (.punct .leftParen :: (commas (args.map (tokens st 0)) ++ [.punct .rightParen])) rest
      fun q => ∃ y, y.Same (.call p e args) ∧ q = suffixes nested mode fuel y := by
  have items := items_elements inside .rightParen rfl writable room
  refine peek_bind_cons fun place => enclosed_bind (by decide) items enough fun _ ys sameArgs => ?_
  exact leads_self ⟨_, by rw [Same, erase, erase, same, eraseAll_congr sameArgs], rfl⟩

theorem takes_sliceRest {p : Position} {opening : Token} {x : Expr} {first first' last : Option Expr}
    (same : x.Same e) (sameFirst : eraseBound first' = eraseBound first)
    (writable : ∀ e ∈ last, e.Writable st.decimal) (room : (bareBound st last).length < n) :
    (sliceRest nested opening x first').Takes
      (.punct .colon :: (bareBound st last ++ [.punct .rightBracket])) rest
      (Same · (.slice p e first last)) := by
  refine consumeMark_bind fun _ => ?_
  cases last with
  | none =>
    refine atMark_bind rfl ?_
    simp only [if_true, pure_bind]
    refine consumeMark_bind fun _ => takes_pure ?_
    rw [Same, erase, erase, same, sameFirst]
  | some e' =>
    rw [bareBound_some] at room ⊢
    refine notClosed_bind (writable e' rfl) rfl ?_
    simp only [Bool.false_eq_true, if_false, map_eq_pure_bind, bind_assoc, pure_bind]
    apply (takes_nested inside (writable e' rfl) room rfl).bind
    intro y sameLast
    refine consumeMark_bind fun _ => takes_pure ?_
    rw [Same, erase, erase, same, sameFirst, eraseBound, eraseBound, sameLast]

theorem takes_index {p : Position} {x i : Expr} (same : x.Same e) (writable : i.Writable st.decimal)
    (room : (i.tokens st 0).length < n) :
    (subscript nested x).Takes (.punct .leftBracket :: (i.tokens st 0 ++ [.punct .rightBracket])) rest
      (Same · (.index p e i)) := by
  refine consumeMark_bind fun _ => notClosed_bind writable rfl ?_
  apply (takes_nested inside writable room rfl).bind
  intro y sameIndex
  refine notAtMark_bind nofun nofun (consumeMark_bind fun _ => takes_pure ?_)
  rw [Same, erase, erase, same, sameIndex]

theorem takes_slice {p : Position} {x : Expr} {first last : Option Expr} (same : x.Same e)
    (writableFirst : ∀ e ∈ first, e.Writable st.decimal)
    (writableLast : ∀ e ∈ last, e.Writable st.decimal)
    (room : (bareBound st first).length < n) (room' : (bareBound st last).length < n) :
    (subscript nested x).Takes
      (.punct .leftBracket :: (bareBound st first ++
        .punct .colon :: (bareBound st last ++ [.punct .rightBracket]))) rest
      (Same · (.slice p e first last)) := by
  cases first with
  | none =>
    refine consumeMark_bind fun _ => atMark_bind rfl ?_
    exact takes_sliceRest inside same rfl writableLast room'
  | some i =>
    rw [bareBound_some] at room ⊢
    have writable := writableFirst i rfl
    refine consumeMark_bind fun _ => notClosed_bind writable rfl ?_
    apply (takes_nested inside writable room rfl).bind
    intro y sameFirst
    refine atMark_bind rfl ?_
    exact takes_sliceRest inside same (by rw [eraseBound, eraseBound, sameFirst]) writableLast room'

theorem suffixing_of_fits (writable : e.Writable st.decimal) (fits : e.Fits st postfixRank ls)
    (room : ls.length ≤ n)
    (bare : e.rank = postfixRank → ls = e.bare st → Suffixing nested mode fuel e ls rest) :
    Suffixing nested mode fuel e ls rest := by
  rcases fits with rfl | ⟨high, rfl⟩
  · exact suffixing_of_primary (takes_parens inside writable room)
  · exact bare (Nat.le_antisymm e.rank_le high) rfl

/-- What binds most tightly: something that stands by itself, with its suffixes.  The induction is on
the expression, whose last suffix is the outermost. -/
theorem suffixing (plain : mode.header = false) (writable : e.Writable st.decimal)
    (fits : e.Fits st postfixRank ls) (room : ls.length ≤ n) (enough : ls.length < fuel)
    (line : mode.multiline = true → Lexeme.first rest ≠ .newline)
    (brace : Lexeme.first rest ≠ .punct .leftBrace) :
    Suffixing nested mode fuel e ls rest := by
  have again := writable
  induction writable generalizing ls rest with
    (apply suffixing_of_fits inside again fits room; rintro rank rfl)
  | int | float | str | bool => exact suffixing_of_primary (takes_literal again)
  | ident => exact suffixing_of_primary (takes_name line fun _ => brace)
  | list elements => exact suffixing_of_primary (takes_list inside elements room enough)
  | dict keys values => exact suffixing_of_primary (takes_dict inside keys values room enough)
  | structInit _ _ values =>
    exact suffixing_of_primary (takes_structInit inside plain values room enough)
  | call callee args ih =>
    rw [bare_call] at room enough ⊢
    refine .step (ih (fits_tokens ..) · · (fun _ => nofun) nofun callee) room enough ?_
    intro x left same short small
    rw [List.length_append] at short small
    exact leads_call inside same args (by omega) (by omega)
  | select target _ ih =>
    rw [bare_select] at room enough ⊢
    refine .step (ih (fits_tokens ..) · · (fun _ => nofun) nofun target) room enough ?_
    exact fun x left same _ _ => leads_select same
  | index target i ih =>
    rw [bare_index] at room enough ⊢
    refine .step (ih (fits_tokens ..) · · (fun _ => nofun) nofun target) room enough ?_
    intro x left same _ small
    rw [List.length_append] at small
    exact leads_subscript (takes_index inside same i (by omega))
  | slice target first last ih =>
    rw [bare_slice] at room enough ⊢
    refine .step (ih (fits_tokens ..) · · (fun _ => nofun) nofun target) room enough ?_
    intro x left same _ small
    simp only [List.length_append, List.length_cons] at small
    exact leads_subscript (takes_slice inside same first last (by omega) (by omega))
  | unary => cases rank
  | @binary _ op => exact absurd rank (Nat.ne_of_lt (Nat.lt_succ_of_lt op.rank_lt))

/-! ## Unary operators -/

/-- An operand behind its unary operators.  The induction is on the fuel of the loop that takes
them. -/
theorem takes_operand (plain : mode.header = false) (writable : e.Writable st.decimal)
    (fits : e.Fits st unaryRank ls) (room : ls.length ≤ n) (enough : ls.length < fuel)
    (stops : Stops mode unaryRank (Lexeme.first rest)) :
    (operand nested mode fuel).Takes ls rest (Same · e) := by
  induction fuel generalizing e ls with
  | zero => cases enough
  | succ fuel ih =>
    rcases fits.unary_cases with fits | ⟨p, op, x, rfl, rfl⟩
    · have starts := (fits.starts (starts_bare writable)).append rest
      refine peek_bind (fun _ => starts.ne rfl rfl) fun place => ?_
      simp only [starts.notUnary]
      have before : Suffixing nested mode (fuel + 1) e ls ([] ++ rest) :=
        suffixing inside plain writable fits room enough stops.line (stops.brace plain)
      rw [← List.append_nil ls]
      apply Leads.trans before
      rintro q ⟨x, left, same, used, rfl⟩
      obtain ⟨left, rfl⟩ : ∃ k, left = k + 1 := ⟨left - 1, by omega⟩
      exact (suffixes_stop stops).mono fun y answer => answer ▸ same
    · cases writable with
      | unary writable =>
        rw [List.length_cons] at room enough
        refine peek_bind_cons fun place => ?_
        simp only [unaryOp?, UnaryOp.ofMark?_mark]
        refine next_bind fun _ => ?_
        apply (ih writable (fits_tokens ..) (by omega) (by omega)).bind_last
        intro y same
        exact takes_pure (by rw [Same, erase, erase, same])

end

/-! ## Binary operators -/

section

variable {tighter : Parser Expr} {rank : Nat}

theorem chain_stop {x : Expr} (stops : Stops mode rank (Lexeme.first rest)) :
    (chain tighter mode rank (fuel + 1) x).Takes [] rest (· = x) := by
  refine peek_bind stops.line fun place => ?_
  simp only [List.nil_append]
  split
  · next op found =>
    have below := stops.operator op found
    rw [op.rank_eq_level] at below
    rw [if_neg (Nat.ne_of_lt below)]
    exact takes_pure rfl
  · exact takes_pure rfl

/-- Behind the tokens `ls` of `e`, the loop over the operators of one level has `e` in its hand and has
used at most as much fuel as there were tokens. -/
def Chaining (tighter : Parser Expr) (mode : Mode) (rank fuel : Nat) (e : Expr)
    (ls rest : List Lexeme) : Prop :=
  (tighter >>= chain tighter mode rank fuel).Leads ls rest
    fun q => ∃ x left, x.Same e ∧ fuel ≤ left + ls.length ∧ q = chain tighter mode rank left x

/-- The operators of one level, which associate to the left.  The induction is on the number of tokens:
the left operand of the last operator is shorter. -/
theorem chaining (reads : Reads st tighter mode (rank + 1) n) (low : rank < unaryRank) (le : n ≤ fuel)
    (writable : e.Writable st.decimal) (fits : e.Fits st rank ls) (room : ls.length < n)
    (stops : Stops mode (rank + 1) (Lexeme.first rest)) :
    Chaining tighter mode rank fuel e ls rest := by
  induction size : ls.length using Nat.strongRecOn generalizing e ls rest with
  | ind k ih =>
    rcases fits.binary_cases low with tight | ⟨p, op, x, y, rfl, rfl, rfl⟩
    · apply (reads writable tight room stops).bind_last
      intro x same
      exact leads_self ⟨x, fuel, same, Nat.le_add_right _ _, rfl⟩
    · cases writable with
      | binary writableLeft writableRight =>
        have lengths := room
        rw [List.length_append, List.length_cons] at size lengths
        have before : Chaining tighter mode op.rank fuel x (x.tokens st op.rank)
            (.punct op.mark :: y.tokens st (op.rank + 1) ++ rest) :=
          ih _ (by omega) writableLeft (fits_tokens ..) (by omega) (stops_binary op) rfl
        apply Leads.trans before
        rintro q ⟨x', left, same, used, rfl⟩
        obtain ⟨left, rfl⟩ : ∃ k, left = k + 1 := ⟨left - 1, by omega⟩
        refine peek_bind_cons fun place => ?_
        simp only [binaryOp?, BinaryOp.ofMark?_mark, op.rank_eq_level, if_true]
        refine next_bind fun _ => ?_
        rw [← op.rank_eq_level]
        apply (reads writableRight (fits_tokens ..) (by omega) stops).bind_last
        intro y' same'
        refine leads_self ⟨_, left, ?_, ?_, rfl⟩
        · rw [Same, erase, erase, same, same']
        · rw [List.length_append, List.length_cons]
          omega

/-- Operands joined by the operators of the last levels.  The induction is on the number of levels. -/
theorem reads_operation {operand : Parser Expr} (reads : Reads st operand mode unaryRank n)
    (le : n ≤ fuel) {count : Nat} (levels : count ≤ BinaryOp.levels) :
    Reads st (operation operand mode fuel count) mode (BinaryOp.levels - count) n := by
  induction count with
  | zero => exact reads
  | succ count ih =>
    intro e ls rest writable fits room stops
    have next : BinaryOp.levels - count = BinaryOp.levels - (count + 1) + 1 := by omega
    have tighter := ih (Nat.le_of_succ_le levels)
    rw [next] at tighter
    have low : BinaryOp.levels - (count + 1) < unaryRank := Nat.sub_lt (by decide) (Nat.succ_pos _)
    have before : Chaining (operation operand mode fuel count) mode (BinaryOp.levels - (count + 1))
        fuel e ls ([] ++ rest) :=
      chaining tighter low le writable fits room (stops.mono (Nat.le_succ _))
    rw [← List.append_nil ls]
    apply Leads.trans before
    rintro q ⟨x, left, same, used, rfl⟩
    obtain ⟨left, rfl⟩ : ∃ k, left = k + 1 := ⟨left - 1, by omega⟩
    exact (chain_stop stops).mono fun y answer => answer ▸ same

end

/-! ## Expressions -/

/-- Expressions outside of headers are read back.  The induction is on the nesting of brackets. -/
theorem reads_parse (fuel : Nat) {mode : Mode} (plain : mode.header = false) :
    Reads st (parse fuel mode) mode 0 fuel := by
  induction fuel generalizing mode with
  | zero =>
    intro e ls rest _ _ room
    cases room
  | succ fuel ih =>
    have operands :
        Reads st (operand (parse fuel .bracketed) mode (fuel + 1)) mode unaryRank (fuel + 1) := by
      intro e ls rest writable fits room stops
      exact takes_operand (ih rfl) plain writable fits (Nat.le_of_lt_succ room) room stops
    exact reads_operation operands (Nat.le_refl _) (Nat.le_refl _)

/-- Tokenizing and parsing the text of an expression, with blanks between the tokens and parentheses
only where the table of precedence and association to the left ask for them, gives that expression
back and uses the whole text, in every place that is not a header. -/
theorem parse_minimal_text (decimal : Float → String) {e : Expr} (writable : e.Writable decimal)
    {mode : Mode} (plain : mode.header = false) {fuel : Nat}
    (enough : (Tokens.ofText (e.text (.minimal decimal))).list.length < fuel) :
    ∃ e' place, (parse fuel mode).run (Tokens.ofText (e.text (.minimal decimal))) =
      .ok (e', ⟨[], .complete place⟩) ∧ e'.erase = e.erase := by
  have spells : (Tokens.ofText _).Spells (e.tokens (.minimal decimal) 0) := spells_text writable
  have room : (e.tokens (.minimal decimal) 0).length < fuel := by
    rwa [← spells.lexemes, List.length_map]
  have takes : (parse fuel mode).Takes (e.tokens (.minimal decimal) 0) [] (Same · e) :=
    reads_parse fuel plain writable (fits_tokens ..) room stops_eof
  obtain ⟨e', place, same, run⟩ := takes.run_all spells
  exact ⟨e', place, run, same⟩

/-- A difference of a product and a selection, the first and the last of them with an operation inside
that needs parentheses. -/
def sample : Expr :=
  .binary .start .sub
    (.binary .start .mul
      (.binary .start .add (.ident .start "a") (.unary .start .minus (.ident .start "b")))
      (.slice .start (.ident .start "c") none (some (.literal .start (.int 1)))))
    (.select .start
      (.binary .start .sub (.ident .start "d")
        (.structInit .start "P" .start [(⟨.start, "k"⟩, .literal .start (.str "v"))])) "k")

theorem writable_sample (decimal : Float → String) : sample.Writable decimal := by
  refine .binary (.binary (.binary (.ident (by decide)) (.unary (.ident (by decide))))
      (.slice (.ident (by decide)) nofun ?bound))
    (.select (.binary (.ident (by decide)) (.structInit (by decide) ?names ?values)) (by decide))
  case bound =>
    rintro e ⟨⟩
    exact .int (by decide)
  case names => exact List.forall_mem_singleton.2 (by decide)
  case values => exact List.forall_mem_singleton.2 .str

theorem parse_minimal_text_sample :
    ∃ e' place, (parse 32 .plain).run
        (Tokens.ofText "( a + - b ) * c [ : 1 ] - ( d - P \x7b k : \"v\" \x7d ) . k") =
      .ok (e', ⟨[], .complete place⟩) ∧ e'.erase = sample :=
  parse_minimal_text (fun _ => "") (writable_sample _) rfl (by decide)

/-! ## Headers -/

theorem takes_operation_of_operand {operand : Parser Expr} {P : Expr → Prop}
    (takes : operand.Takes ls rest P) (stops : Stops mode 0 (Lexeme.first rest)) (count : Nat) :
    (operation operand mode (fuel + 1) count).Takes ls rest P := by
  induction count with
  | zero => exact takes
  | succ count ih =>
    apply ih.bind_last
    intro x holds
    exact (chain_stop (stops.mono (Nat.zero_le _))).mono fun y answer => answer ▸ holds

/-- Where no operator and no suffix follows, an expression that stands by itself is read alone. -/
theorem takes_alone {P : Expr → Prop} (takes : (primary nested mode (fuel + 1)).Takes ls rest P)
    (starts : Starts postfixRank (Lexeme.first ls)) (stops : Stops mode 0 (Lexeme.first rest)) :
    (parseLevel nested mode (fuel + 1)).Takes ls rest P := by
  refine takes_operation_of_operand ?_ stops _
  have starts' := starts.append rest
  refine peek_bind (fun _ => starts'.ne rfl rfl) fun place => ?_
  simp only [starts'.notUnary]
  apply takes.bind_last
  intro x holds
  exact (suffixes_stop stops).mono fun y answer => answer ▸ holds

theorem stops_heading : Stops .heading need (.punct .leftBrace) :=
  ⟨nofun, nofun, ⟨nofun, nofun, nofun⟩, nofun⟩

/-- In a header, where the body follows, an expression is read back that is in parentheses or stands by
itself. -/
theorem takes_heading (full : st.Full) (writable : e.Writable st.decimal)
    (room : (e.tokens st 0).length < fuel) :
    (parse fuel .heading).Takes (e.tokens st 0) (.punct .leftBrace :: rest) (Same · e) := by
  cases fuel with
  | zero => cases room
  | succ fuel =>
    have inside : Reads st (parse fuel .bracketed) .bracketed 0 fuel := reads_parse fuel rfl
    rcases tokens_cases_of_full full e with parens | ⟨alone, bare⟩
    · rw [parens] at room ⊢
      exact takes_alone (takes_parens inside writable (Nat.le_of_lt_succ room)) (.inl rfl) stops_heading
    · rw [bare] at room ⊢
      refine takes_alone ?_ (rank_of_standsAlone alone ▸ starts_bare writable) stops_heading
      have room' := Nat.le_of_lt_succ room
      have again := writable
      cases writable with
      | int | float | str | bool => exact takes_literal again
      | ident => exact takes_name nofun nofun
      | list elements => exact takes_list inside elements room' room
      | dict keys values => exact takes_dict inside keys values room' room
      | _ => cases alone

end Shiba.Expr

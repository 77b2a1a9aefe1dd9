import Shiba.Proofs.RoundTrip.StmtParse
import Shiba.Value.Data

/-!
# The canonical form of data is an expression

The canonical form of booleans, integers, strings, lists and dictionaries is the text of an expression:
reading it gives a program of one statement, which is that expression.

* `Data.text` is the canonical form of a tree, and `Data.expr` the expression it is read as.
* `Data.Plain n` are the trees, nested no deeper than `n`, that can be read back: the least integer is
  left out, because its digits do not fit, and no two keys of a dictionary are filed in one place.
* `Data.parse_text` is the statement.
-/

namespace Shiba

open Shiba.Parser (commas)

namespace Data

/-! ## Trees as text and as expressions -/

mutual

/-- The canonical form of a tree. -/
def text : Data → String
  | .nil => "nil"
  | .bool b => if b then "true" else "false"
  | .int n => intText n
  | .float x => floatLayout.write x
  | .str s => Text.quote s
  | .list elements => "[" ++ ", ".intercalate (texts elements) ++ "]"
  | .dict entries => "\x7b" ++ ", ".intercalate (entryTexts entries) ++ "\x7d"
  | .other _ text => text

/-- The canonical forms of trees. -/
def texts : List Data → List String
  | [] => []
  | x :: rest => text x :: texts rest

/-- The canonical forms of the entries of a dictionary. -/
def entryTexts : List (Data × Data) → List String
  | [] => []
  | (key, value) :: rest => (text key ++ ": " ++ text value) :: entryTexts rest

end

/-- The kind of a tree. -/
def kind : Data → Kind
  | .nil => .nil
  | .bool _ => .bool
  | .int _ => .int
  | .float _ => .float
  | .str _ => .str
  | .list _ => .list
  | .dict _ => .dict
  | .other kind _ => kind

/-- What a tree is filed under as a key. -/
def key (x : Data) : Key := ⟨x.kind, x.text⟩

mutual

/-- The expression a tree is read as; what has no literal form is read as a name. -/
def expr : Data → Expr
  | .bool b => .literal .start (.bool b)
  | .int n =>
    if n < 0 then .unary .start .minus (.literal .start (.int (-n))) else .literal .start (.int n)
  | .float x => .literal .start (.float x)
  | .str s => .literal .start (.str s)
  | .list elements => .list .start (exprs elements)
  | .dict entries => .dict .start (entryExprs entries)
  | .nil => .ident .start "nil"
  | .other _ text => .ident .start text

/-- The expressions trees are read as. -/
def exprs : List Data → List Expr
  | [] => []
  | x :: rest => expr x :: exprs rest

/-- The expressions the entries of a dictionary are read as. -/
def entryExprs : List (Data × Data) → List (Expr × Expr)
  | [] => []
  | (key, value) :: rest => (expr key, expr value) :: entryExprs rest

end

theorem texts_eq_map (xs : List Data) : texts xs = xs.map text := by
  induction xs with
  | nil => rfl
  | cons x xs ih => rw [texts, ih, List.map_cons]

theorem entryTexts_eq_map (entries : List (Data × Data)) :
    entryTexts entries = entries.map fun e => e.1.text ++ ": " ++ e.2.text := by
  induction entries with
  | nil => rfl
  | cons e entries ih => rw [entryTexts, ih, List.map_cons]

theorem exprs_eq_map (xs : List Data) : exprs xs = xs.map expr := by
  induction xs with
  | nil => rfl
  | cons x xs ih => rw [exprs, ih, List.map_cons]

theorem entryExprs_eq_map (entries : List (Data × Data)) :
    entryExprs entries = entries.map fun e => (e.1.expr, e.2.expr) := by
  induction entries with
  | nil => rfl
  | cons e entries ih => rw [entryExprs, ih, List.map_cons]

/-- Trees that can be read back, nested no deeper than a bound. -/
inductive Plain : Nat → Data → Prop
  | bool {n : Nat} {b : Bool} : Plain (n + 1) (.bool b)
  | int {n : Nat} {i : Int64} : i ≠ Int64.minValue → Plain (n + 1) (.int i)
  | str {n : Nat} {s : String} : Plain (n + 1) (.str s)
  | list {n : Nat} {elements : List Data} :
    (∀ x ∈ elements, Plain n x) → Plain (n + 1) (.list elements)
  | dict {n : Nat} {entries : List (Data × Data)} :
    (∀ e ∈ entries, Plain n e.1) → (∀ e ∈ entries, Plain n e.2) → (entries.map (·.1.key)).Nodup →
    Plain (n + 1) (.dict entries)

theorem Plain.empty {n : Nat} : (Data.dict []).Plain (n + 1) := .dict nofun nofun .nil

theorem Plain.entries {n : Nat} {entries : List (Data × Data)}
    (plain : (Data.dict entries).Plain (n + 1)) :
    ∀ e ∈ entries, e.1.Plain n ∧ e.2.Plain n := by
  cases plain with
  | dict keys values => exact fun e member => ⟨keys e member, values e member⟩

theorem Plain.distinct {n : Nat} {entries : List (Data × Data)}
    (plain : (Data.dict entries).Plain (n + 1)) : (entries.map (·.1.key)).Nodup := by
  cases plain with
  | dict _ _ distinct => exact distinct

/-! ## Integers -/

theorem toInt_neg {n : Int64} (notLeast : n ≠ Int64.minValue) : (-n).toInt = -n.toInt := by
  have lower := n.le_toInt
  have upper := n.toInt_lt
  have ne : n.toInt ≠ -2 ^ 63 :=
    fun same => notLeast (Int64.toInt_inj.1 (same.trans Int64.toInt_minValue.symm))
  rw [Int64.toInt_neg]
  apply Int.bmod_eq_of_le <;> omega

theorem neg_ne_minValue {n : Int64} (notLeast : n ≠ Int64.minValue) : -n ≠ Int64.minValue := by
  intro same
  have negated := toInt_neg notLeast
  rw [same, Int64.toInt_minValue] at negated
  have upper := n.toInt_lt
  omega

theorem intText_of_nonneg {n : Int64} (nonnegative : ¬n < 0) : intText n = n.toNatClampNeg.repr := by
  rw [Int64.lt_iff_toInt_lt, Int64.toInt_zero, Int.not_lt] at nonnegative
  obtain ⟨m, same⟩ := Int.eq_ofNat_of_zero_le nonnegative
  rw [intText, Int64.toNatClampNeg, same]
  rfl

theorem intText_of_neg {n : Int64} (notLeast : n ≠ Int64.minValue) (negative : n < 0) :
    intText n = "-" ++ (-n).toNatClampNeg.repr := by
  rw [Int64.lt_iff_toInt_lt, Int64.toInt_zero] at negative
  obtain ⟨m, same⟩ := Int.eq_negSucc_of_lt_zero negative
  rw [intText, Int64.toNatClampNeg, toInt_neg notLeast, same]
  rfl

/-! ## Text -/

/-- The characters that follow a canonical form inside another one. -/
def closers : List Char := [',', ']', '\x7d', ':']

/-- The text behind a canonical form: it ends, or goes on with a mark that cannot belong to it. -/
def Closed (cs : List Char) : Prop := ∀ c ∈ cs.head?, c ∈ closers

/-- The style in which canonical forms are written. -/
abbrev style : Style := .minimal fun _ => ""

theorem tokens_style (e : Expr) : e.tokens style 0 = e.bare style := by
  simp [Expr.tokens, Style.wrap, style, Style.minimal]

theorem writable_expr {n : Nat} {x : Data} (plain : x.Plain n) : x.expr.Writable style.decimal := by
  induction plain with
  | bool => exact .bool
  | @int _ i notLeast =>
    rw [expr]
    split
    · next negative =>
      refine .unary (.int ?_)
      rw [Int64.le_iff_toInt_le, Int64.toInt_zero, toInt_neg notLeast]
      rw [Int64.lt_iff_toInt_lt, Int64.toInt_zero] at negative
      omega
    · next nonnegative =>
      rw [Int64.lt_iff_toInt_lt, Int.not_lt] at nonnegative
      exact .int (Int64.le_iff_toInt_le.2 nonnegative)
  | str => exact .str
  | list _ ih =>
    refine .list ?_
    rw [exprs_eq_map]
    exact List.forall_mem_map.2 ih
  | dict _ _ _ ihKeys ihValues =>
    refine .dict ?_ ?_
    · rw [entryExprs_eq_map]
      exact List.forall_mem_map.2 ihKeys
    · rw [entryExprs_eq_map]
      exact List.forall_mem_map.2 ihValues

/-- A text that is read as given tokens before a text that cannot belong to them. -/
def WrittenAs (s : String) (ls : List Lexeme) : Prop :=
  ∀ ⦃cs : List Char⦄ ⦃rest : List Lexeme⦄, Closed cs → Written cs rest →
    Written (s.toList ++ cs) (ls ++ rest)

theorem writtenAs_token (l : Lexeme) (spelled : l.Spelled) (ends : ∀ cs, Closed cs → l.Ends cs) :
    WrittenAs (String.ofList l.spelling) [l] := by
  intro cs rest closed written
  rw [String.toList_ofList]
  exact .token spelled (ends cs closed) written

theorem ends_of_closed {p : Char → Bool} (other : closers.all (fun c => p c = false) = true)
    (cs : List Char) (closed : Closed cs) : ∀ c ∈ cs.head?, p c = false :=
  fun c first => of_decide_eq_true (List.all_eq_true.1 other c (closed c first))

theorem writtenAs_number (n : Nat) : WrittenAs n.repr [.number n.repr] := by
  have digits := writtenAs_token (.number n.repr) (Expr.isNumber_repr n) (ends_of_closed (by decide))
  rwa [Lexeme.spelling, String.ofList_toList] at digits

/-- The marks that do not start a longer one. -/
def standsAlone (mark : Punctuator) : Prop :=
  ∃ c, mark.text.toList = [c] ∧ ∀ d, Punctuator.pair? c d = none

theorem written_mark (mark : Punctuator) (alone : standsAlone mark) {cs : List Char}
    {ls : List Lexeme} (written : Written cs ls) :
    Written (mark.text.toList ++ cs) (.punct mark :: ls) := by
  obtain ⟨c, text, none⟩ := alone
  have spelled : (Lexeme.punct mark).Spelled := trivial
  refine .token spelled ?_ written
  intro d _ c' same
  cases text.symm.trans same
  exact none d

/-- Items divided by commas and blanks. -/
theorem writtenAs_commas {γ : Type} {text : γ → String} {tokens : γ → List Lexeme} {xs : List γ}
    (each : ∀ x ∈ xs, WrittenAs (text x) (tokens x)) :
    WrittenAs (", ".intercalate (xs.map text)) (commas (xs.map tokens)) := by
  induction xs with
  | nil => exact fun _ _ _ written => written
  | cons x xs ih =>
    have ⟨here, later⟩ := List.forall_mem_cons.1 each
    cases xs with
    | nil =>
      rw [List.map_singleton, List.map_singleton, Parser.commas_singleton, String.intercalate_singleton]
      exact here
    | cons y ys =>
      intro cs rest closed written
      have blank := Written.blank (c := ' ') rfl (ih later closed written)
      have after := written_mark .comma ⟨',', rfl, fun _ => rfl⟩ blank
      have whole := here (by rintro c ⟨⟩; decide) after
      simpa [Parser.commas_cons_cons, String.intercalate_cons_cons, Punctuator.text] using whole

/-- Items in brackets. -/
theorem writtenAs_enclosed {s : String} {ls : List Lexeme} (opening close : Punctuator) {d : Char}
    (aloneOpening : standsAlone opening) (alone : standsAlone close)
    (closing : close.text.toList = [d]) (closes : d ∈ closers) (inside : WrittenAs s ls) :
    WrittenAs (opening.text ++ s ++ close.text) (.punct opening :: (ls ++ [.punct close])) := by
  intro cs rest closed written
  have closed' : Closed (close.text.toList ++ cs) := by
    rw [closing]
    rintro c ⟨⟩
    exact closes
  have whole := written_mark opening aloneOpening (inside closed' (written_mark close alone written))
  simpa using whole

theorem writtenAs_entry {s s' : String} {ls ls' : List Lexeme} (key : WrittenAs s ls)
    (value : WrittenAs s' ls') : WrittenAs (s ++ ": " ++ s') (ls ++ .punct .colon :: ls') := by
  intro cs rest closed written
  have blank := Written.blank (c := ' ') rfl (value closed written)
  have spelled : (Lexeme.punct .colon).Spelled := trivial
  have colon := Written.token spelled (by rintro d ⟨⟩ c ⟨⟩; rfl) blank
  have whole := key (by rintro c ⟨⟩; decide) colon
  simpa [Lexeme.spelling, Punctuator.text] using whole

/-- The canonical form of a plain tree is made of the tokens of the expression it is read as. -/
theorem writtenAs_text {n : Nat} {x : Data} (plain : x.Plain n) :
    WrittenAs x.text (x.expr.tokens style 0) := by
  induction plain with
  | @bool _ b =>
    cases b with
    | false => exact writtenAs_token (.keyword .falseWord) trivial (ends_of_closed (by decide))
    | true => exact writtenAs_token (.keyword .trueWord) trivial (ends_of_closed (by decide))
  | @int _ i notLeast =>
    rw [text, expr]
    split
    · next negative =>
      intro cs rest closed written
      have digits := writtenAs_number (-i).toNatClampNeg closed written
      rw [intText_of_neg notLeast negative, String.toList_append, List.append_assoc]
      have spelled : (Lexeme.punct .minus).Spelled := trivial
      refine .token spelled ?_ digits
      intro d first c minus
      obtain ⟨d', ds, text, digit, -⟩ := isNumber_iff.1 (Expr.isNumber_repr (-i).toNatClampNeg)
      cases minus
      rw [text] at first
      cases first
      unfold Punctuator.pair?
      split <;> first | rfl | cases digit
    · next nonnegative =>
      rw [intText_of_nonneg nonnegative]
      exact writtenAs_number _
  | @str _ s => exact writtenAs_token (.string s) trivial fun _ _ => trivial
  | @list _ elements _ ih =>
    have items := writtenAs_commas ih
    rw [tokens_style, expr, Expr.bare_list, text, texts_eq_map, exprs_eq_map, List.map_map]
    exact writtenAs_enclosed .leftBracket .rightBracket ⟨'[', rfl, fun _ => rfl⟩
      ⟨']', rfl, fun _ => rfl⟩ rfl (by decide) items
  | @dict _ entries _ _ _ ihKeys ihValues =>
    have items := writtenAs_commas fun e member => writtenAs_entry (ihKeys e member) (ihValues e member)
    rw [tokens_style, expr, Expr.bare_dict, text, entryTexts_eq_map, entryExprs_eq_map, List.map_map]
    exact writtenAs_enclosed .leftBrace .rightBrace ⟨'\x7b', rfl, fun _ => rfl⟩
      ⟨'\x7d', rfl, fun _ => rfl⟩ rfl (by decide) items

theorem spells_text {n : Nat} {x : Data} (plain : x.Plain n) :
    (Tokens.ofText x.text).Spells (x.expr.tokens style 0) := by
  have written := writtenAs_text plain (show Closed [] from nofun) .nil
  rw [List.append_nil, List.append_nil] at written
  exact written.spells

/-- The canonical form of a plain tree is a program of one statement, the expression it is read as. -/
theorem parse_text {n : Nat} {x : Data} (plain : x.Plain n) :
    ∃ e, Program.parse x.text = .ok [.expr e] ∧ e.Same x.expr :=
  Program.parse_expr (writable_expr plain) (spells_text plain)

end Data

end Shiba

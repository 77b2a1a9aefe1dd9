import Shiba.Proofs.RoundTrip.DataText

/-!
# Canonical forms are uniquely readable

A tree of nil, booleans, integers, strings, lists and dictionaries can be told from its canonical form,
whatever the strings in it contain.  A canonical form also tells where it ends: before the end of the
text, or before one of the marks that stand behind a part of a container, no other form begins the same.

* `Data.Discrete` are the trees in question, the ones without floats.
* `Data.Distinctive text among x`: the text of `x` is told from the texts of all that are `among` given
  things, and so is its end.
* `Data.Discrete.distinctive`, `Data.Discrete.text_inj` are the statements.
-/

namespace Shiba.Data

/-- Trees of nil, booleans, integers, strings, lists and dictionaries. -/
inductive Discrete : Data → Prop
  | nil : Discrete .nil
  | bool {b : Bool} : Discrete (.bool b)
  | int {n : Int64} : Discrete (.int n)
  | str {s : String} : Discrete (.str s)
  | list {elements : List Data} : (∀ x ∈ elements, Discrete x) → Discrete (.list elements)
  | dict {entries : List (Data × Data)} :
    (∀ e ∈ entries, Discrete e.1) → (∀ e ∈ entries, Discrete e.2) → Discrete (.dict entries)

theorem discrete_list {elements : List Data} :
    (Data.list elements).Discrete ↔ ∀ x ∈ elements, x.Discrete := by
  refine ⟨fun discrete => ?_, .list⟩
  cases discrete with
  | list each => exact each

theorem discrete_dict {entries : List (Data × Data)} :
    (Data.dict entries).Discrete ↔ ∀ e ∈ entries, e.1.Discrete ∧ e.2.Discrete := by
  refine ⟨fun discrete e member => ?_, fun each => .dict ?_ ?_⟩
  · cases discrete with
    | dict keys values => exact ⟨keys e member, values e member⟩
  · exact fun e member => (each e member).1
  · exact fun e member => (each e member).2

mutual

def decideDiscrete : (x : Data) → Decidable x.Discrete
  | .nil => .isTrue .nil
  | .bool _ => .isTrue .bool
  | .int _ => .isTrue .int
  | .float _ => .isFalse nofun
  | .str _ => .isTrue .str
  | .list elements => @decidable_of_iff' _ _ discrete_list (decideElements elements)
  | .dict entries => @decidable_of_iff' _ _ discrete_dict (decideEntries entries)
  | .other _ _ => .isFalse nofun

def decideElements : (elements : List Data) → Decidable (∀ x ∈ elements, x.Discrete)
  | [] => .isTrue nofun
  | x :: elements =>
    @decidable_of_iff' _ _ List.forall_mem_cons
      (@instDecidableAnd _ _ (decideDiscrete x) (decideElements elements))

def decideEntries :
    (entries : List (Data × Data)) → Decidable (∀ e ∈ entries, e.1.Discrete ∧ e.2.Discrete)
  | [] => .isTrue nofun
  | (key, value) :: entries =>
    @decidable_of_iff' _ _ List.forall_mem_cons
      (@instDecidableAnd _ _ (@instDecidableAnd _ _ (decideDiscrete key) (decideDiscrete value))
        (decideEntries entries))

end

instance : DecidablePred Discrete := decideDiscrete

/-! ## The first character -/

/-- The kind of the trees whose canonical form begins with a character. -/
def opened (c : Char) : Option Kind :=
  if c = 'n' then some .nil
  else if c = 't' || c = 'f' then some .bool
  else if c = '-' || c.isDigit then some .int
  else if c = '"' then some .str
  else if c = '[' then some .list
  else if c = '\x7b' then some .dict
  else none

theorem opened_digit {c : Char} (digit : c.isDigit = true) : opened c = some .int := by
  have ne : ∀ d : Char, d.isDigit = false → c ≠ d := by
    rintro d other rfl
    exact absurd digit (by rw [other]; decide)
  simp [opened, digit, ne 'n' rfl, ne 't' rfl, ne 'f' rfl]

theorem intText_nonneg {n : Int64} {m : Nat} (same : n.toInt = .ofNat m) : intText n = m.repr := by
  rw [intText, same]
  rfl

theorem toList_intText_neg {n : Int64} {m : Nat} (same : n.toInt = .negSucc m) :
    (intText n).toList = '-' :: (m + 1).repr.toList := by
  rw [intText, same]
  exact String.toList_append

/-- The canonical form of a tree shows the kind of the tree by its first character. -/
theorem Discrete.opens {x : Data} (discrete : x.Discrete) :
    ∃ c cs, x.text.toList = c :: cs ∧ opened c = some x.kind := by
  cases discrete with
  | nil => exact ⟨'n', ['i', 'l'], rfl, rfl⟩
  | @bool b =>
    cases b with
    | false => exact ⟨'f', ['a', 'l', 's', 'e'], rfl, rfl⟩
    | true => exact ⟨'t', ['r', 'u', 'e'], rfl, rfl⟩
  | @int n =>
    rw [text]
    cases same : n.toInt with
    | ofNat m =>
      rw [intText_nonneg same]
      obtain ⟨c, cs, digits, digit, -⟩ := isNumber_iff.1 (Expr.isNumber_repr m)
      exact ⟨c, cs, digits, opened_digit digit⟩
    | negSucc m => exact ⟨'-', (m + 1).repr.toList, toList_intText_neg same, rfl⟩
  | @str s => exact ⟨'"', _, String.toList_ofList, rfl⟩
  | list _ => exact ⟨'[', _, by rw [text, String.toList_append, String.toList_append]; rfl, rfl⟩
  | dict _ _ => exact ⟨'\x7b', _, by rw [text, String.toList_append, String.toList_append]; rfl, rfl⟩

/-! ## Texts that tell their end -/

/-- The text of a thing is told from the texts of given things, before all that can stand behind it, and
so is where it ends. -/
def Distinctive {γ : Type} (text : γ → String) (among : γ → Prop) (x : γ) : Prop :=
  ∀ ⦃y : γ⦄ ⦃cs cs' : List Char⦄, among y → Closed cs → Closed cs' →
    (text x).toList ++ cs = (text y).toList ++ cs' → x = y ∧ cs = cs'

/-- The texts of given things begin with a character that stands behind no text. -/
def Begins {γ : Type} (text : γ → String) (among : γ → Prop) : Prop :=
  ∀ ⦃y : γ⦄, among y → ∃ c cs, (text y).toList = c :: cs ∧ c ∉ closers

theorem opened_eq_none {c : Char} (closes : c ∈ closers) : opened c = none := by
  simp only [closers, List.mem_cons, List.not_mem_nil, or_false] at closes
  rcases closes with rfl | rfl | rfl | rfl <;> rfl

theorem begins_text : Begins text Discrete := by
  intro x discrete
  obtain ⟨c, cs, here, kind⟩ := discrete.opens
  refine ⟨c, cs, here, fun closes => ?_⟩
  rw [opened_eq_none closes] at kind
  cases kind

theorem closed_cons {c : Char} {cs : List Char} (closes : c ∈ closers) : Closed (c :: cs) := by
  rintro d ⟨⟩
  exact closes

/-- Digits end before the first character that is none. -/
theorem repr_append_inj {m n : Nat} {cs cs' : List Char} (closed : Closed cs) (closed' : Closed cs')
    (same : m.repr.toList ++ cs = n.repr.toList ++ cs') : m = n ∧ cs = cs' := by
  have split : ∀ (k : Nat) {ds : List Char}, Closed ds →
      (k.repr.toList ++ ds).takeWhile Reader.isNumberChar = k.repr.toList ∧
        (k.repr.toList ++ ds).dropWhile Reader.isNumberChar = ds := by
    intro k ds closed
    obtain ⟨c, cs, digits, -, all, -⟩ := isNumber_iff.1 (Expr.isNumber_repr k)
    rw [digits]
    exact takeWhile_append_stop all (ends_of_closed (by decide) ds closed)
  obtain ⟨digits, rest⟩ := split m closed
  obtain ⟨digits', rest'⟩ := split n closed'
  rw [same] at digits rest
  refine ⟨?_, rest.symm.trans rest'⟩
  rw [← Expr.digitsValue_repr m, ← digits, digits', Expr.digitsValue_repr]

theorem intText_append_inj {m n : Int64} {cs cs' : List Char} (closed : Closed cs)
    (closed' : Closed cs') (same : (intText m).toList ++ cs = (intText n).toList ++ cs') :
    m = n ∧ cs = cs' := by
  -- A minus sign is no digit, so the signs agree, and then so do the digits.
  have sign : ∀ (i j : Nat) (ds ds' : List Char),
      i.repr.toList ++ ds ≠ '-' :: j.repr.toList ++ ds' := by
    intro i j ds ds' same
    obtain ⟨c, cs, digits, digit, -⟩ := isNumber_iff.1 (Expr.isNumber_repr i)
    rw [digits] at same
    cases (List.cons.inj same).1
    exact absurd digit (by decide)
  rw [← Int64.toInt_inj]
  cases left : m.toInt <;> cases right : n.toInt
  · rw [intText_nonneg left, intText_nonneg right] at same
    obtain ⟨rfl, rest⟩ := repr_append_inj closed closed' same
    exact ⟨rfl, rest⟩
  · rw [intText_nonneg left, toList_intText_neg right] at same
    exact absurd same (sign _ _ _ _)
  · rw [toList_intText_neg left, intText_nonneg right] at same
    exact absurd same.symm (sign _ _ _ _)
  · rw [toList_intText_neg left, toList_intText_neg right] at same
    obtain ⟨digits, rest⟩ := repr_append_inj closed closed' (List.cons.inj same).2
    cases digits
    exact ⟨rfl, rest⟩

/-! ## Quoted text -/

/-- How a character stands inside quotes tells the character and where it ends. -/
theorem quoteChar_append_inj {c d : Char} {cs ds : List Char}
    (same : Text.quoteChar c ++ cs = Text.quoteChar d ++ ds) : c = d ∧ cs = ds := by
  unfold Text.quoteChar at same
  split at same <;> split at same <;> simp_all [eq_comm]

/-- No character stands inside quotes as a quote. -/
theorem quoteChar_ne_quote (c : Char) (cs ds : List Char) : Text.quoteChar c ++ cs ≠ '"' :: ds := by
  intro same
  unfold Text.quoteChar at same
  split at same <;> simp_all

/-- The closing quote is the first one that is not part of a character. -/
theorem flatMap_quoteChar_inj {s t cs cs' : List Char}
    (same : s.flatMap Text.quoteChar ++ '"' :: cs = t.flatMap Text.quoteChar ++ '"' :: cs') :
    s = t ∧ cs = cs' := by
  induction s generalizing t with
  | nil =>
    cases t with
    | nil => exact ⟨rfl, (List.cons.inj same).2⟩
    | cons d t =>
      rw [List.flatMap_cons, List.append_assoc] at same
      exact absurd same.symm (quoteChar_ne_quote d _ _)
  | cons c s ih =>
    cases t with
    | nil =>
      rw [List.flatMap_cons, List.append_assoc] at same
      exact absurd same (quoteChar_ne_quote c _ _)
    | cons d t =>
      rw [List.flatMap_cons, List.flatMap_cons, List.append_assoc, List.append_assoc] at same
      obtain ⟨rfl, later⟩ := quoteChar_append_inj same
      obtain ⟨rfl, rest⟩ := ih later
      exact ⟨rfl, rest⟩

theorem quote_append_inj {s t : String} {cs cs' : List Char}
    (same : (Text.quote s).toList ++ cs = (Text.quote t).toList ++ cs') : s = t ∧ cs = cs' := by
  simp only [Text.quote, Text.quoteChars, String.toList_ofList, List.cons_append, List.append_assoc,
    List.nil_append, List.cons.injEq, true_and] at same
  obtain ⟨chars, rest⟩ := flatMap_quoteChar_inj same
  exact ⟨String.toList_injective chars, rest⟩

/-! ## Parts of containers -/

section

variable {γ : Type} {text : γ → String} {among : γ → Prop} {xs ys : List γ} {d : Char}
  {cs cs' : List Char}

/-- What stands behind the first of several parts. -/
def behind (text : γ → String) (xs : List γ) : List Char :=
  xs.flatMap fun x => ',' :: ' ' :: (text x).toList

theorem toList_intercalate_cons (text : γ → String) (x : γ) (xs : List γ) :
    (", ".intercalate ((x :: xs).map text)).toList = (text x).toList ++ behind text xs := by
  induction xs generalizing x with
  | nil => simp [behind]
  | cons y ys ih =>
    rw [List.map_cons, List.map_cons, String.intercalate_cons_cons, ← List.map_cons,
      String.toList_append, ih y, String.toList_append, List.append_assoc]
    rfl

theorem closed_behind (closes : d ∈ closers) : Closed (behind text xs ++ d :: cs) := by
  cases xs with
  | nil => exact closed_cons closes
  | cons x xs => exact closed_cons (by decide)

theorem behind_inj (each : ∀ x ∈ xs, Distinctive text among x) (closes : d ∈ closers) (other : d ≠ ',')
    (present : ∀ y ∈ ys, among y)
    (same : behind text xs ++ d :: cs = behind text ys ++ d :: cs') : xs = ys ∧ cs = cs' := by
  induction xs generalizing ys with
  | nil =>
    cases ys with
    | nil => exact ⟨rfl, (List.cons.inj same).2⟩
    | cons y ys => exact absurd (List.cons.inj same).1 other
  | cons x xs ih =>
    cases ys with
    | nil => exact absurd (List.cons.inj same).1.symm other
    | cons y ys =>
      have ⟨here, later⟩ := List.forall_mem_cons.1 each
      have ⟨present, presentLater⟩ := List.forall_mem_cons.1 present
      simp only [behind, List.flatMap_cons, List.cons_append, List.append_assoc, List.cons.injEq,
        true_and] at same
      obtain ⟨rfl, rest⟩ := here present (closed_behind closes) (closed_behind closes) same
      obtain ⟨rfl, ends⟩ := ih later presentLater rest
      exact ⟨rfl, ends⟩

/-- Parts between a mark that opens and a mark that closes a container are told by the text of the
container. -/
theorem intercalate_inj (each : ∀ x ∈ xs, Distinctive text among x) (begins : Begins text among)
    (closes : d ∈ closers) (other : d ≠ ',') (present : ∀ x ∈ xs, among x)
    (present' : ∀ y ∈ ys, among y)
    (same : (", ".intercalate (xs.map text)).toList ++ d :: cs =
      (", ".intercalate (ys.map text)).toList ++ d :: cs') : xs = ys ∧ cs = cs' := by
  -- A container without parts closes at once, and no part begins like that.
  have first : ∀ {z : γ} {ds ds' : List Char}, among z → (text z).toList ++ ds ≠ d :: ds' := by
    intro z ds ds' present same
    obtain ⟨c, rest, text, notClosing⟩ := begins present
    rw [text] at same
    cases (List.cons.inj same).1
    exact notClosing closes
  cases xs with
  | nil =>
    cases ys with
    | nil => exact ⟨rfl, (List.cons.inj same).2⟩
    | cons y ys =>
      rw [toList_intercalate_cons, List.append_assoc] at same
      exact absurd same.symm (first (present' y List.mem_cons_self))
  | cons x xs =>
    cases ys with
    | nil =>
      rw [toList_intercalate_cons, List.append_assoc] at same
      exact absurd same (first (present x List.mem_cons_self))
    | cons y ys =>
      have ⟨here, later⟩ := List.forall_mem_cons.1 each
      have ⟨hereIn, laterIn⟩ := List.forall_mem_cons.1 present'
      rw [toList_intercalate_cons, toList_intercalate_cons, List.append_assoc, List.append_assoc] at same
      obtain ⟨rfl, rest⟩ := here hereIn (closed_behind closes) (closed_behind closes) same
      obtain ⟨rfl, ends⟩ := behind_inj later closes other laterIn rest
      exact ⟨rfl, ends⟩

end

/-- How an entry of a dictionary stands in the canonical form of the dictionary. -/
def entryText (e : Data × Data) : String := e.1.text ++ ": " ++ e.2.text

/-- Entries made of trees without floats. -/
def DiscreteEntry (e : Data × Data) : Prop := e.1.Discrete ∧ e.2.Discrete

theorem begins_entryText : Begins entryText DiscreteEntry := by
  intro e discrete
  obtain ⟨c, cs, text, notClosing⟩ := begins_text discrete.1
  refine ⟨c, cs ++ ": ".toList ++ e.2.text.toList, ?_, notClosing⟩
  rw [entryText, String.toList_append, String.toList_append, text]
  rfl

theorem distinctive_entryText {e : Data × Data} (key : Distinctive text Discrete e.1)
    (value : Distinctive text Discrete e.2) : Distinctive entryText DiscreteEntry e := by
  intro e' cs cs' discrete closed closed' same
  simp only [entryText, String.toList_append, List.append_assoc] at same
  have colon : ∀ ds : List Char, Closed (": ".toList ++ ds) := fun _ => closed_cons (by decide)
  have ⟨keys, behind⟩ := key discrete.1 (colon _) (colon _) same
  have ⟨values, rest⟩ := value discrete.2 closed closed' (List.append_cancel_left behind)
  exact ⟨Prod.ext keys values, rest⟩

theorem text_list (elements : List Data) :
    (Data.list elements).text.toList = '[' :: ((", ".intercalate (elements.map text)).toList ++ [']']) := by
  rw [text, texts_eq_map, String.toList_append, String.toList_append]
  rfl

theorem text_dict (entries : List (Data × Data)) : (Data.dict entries).text.toList =
    '\x7b' :: ((", ".intercalate (entries.map entryText)).toList ++ ['\x7d']) := by
  rw [text, entryTexts_eq_map, String.toList_append, String.toList_append]
  rfl

/-! ## Trees -/

/-- Two trees whose canonical forms, with more text behind them, agree are of one kind. -/
theorem Discrete.kind_eq {x y : Data} (discrete : x.Discrete) (discrete' : y.Discrete)
    {cs cs' : List Char} (same : x.text.toList ++ cs = y.text.toList ++ cs') : x.kind = y.kind := by
  obtain ⟨c, rest, text, kind⟩ := discrete.opens
  obtain ⟨c', rest', text', kind'⟩ := discrete'.opens
  rw [text, text'] at same
  cases (List.cons.inj same).1
  exact Option.some.inj (kind.symm.trans kind')

/-- The canonical form of a tree tells the tree and where the form ends. -/
theorem Discrete.distinctive {x : Data} (discrete : x.Discrete) : Distinctive text Discrete x := by
  induction discrete with
  | nil =>
    intro y cs cs' discrete' _ _ same
    have kind := Discrete.nil.kind_eq discrete' same
    cases discrete' <;> cases kind
    exact ⟨rfl, List.append_cancel_left same⟩
  | @bool b =>
    intro y cs cs' discrete' _ _ same
    have kind := Discrete.bool.kind_eq discrete' same
    cases discrete' <;> cases kind
    next b' => cases b <;> cases b' <;> first | cases same; exact ⟨rfl, rfl⟩ | cases same
  | @int n =>
    intro y cs cs' discrete' closed closed' same
    have kind := Discrete.int.kind_eq discrete' same
    cases discrete' <;> cases kind
    obtain ⟨rfl, rest⟩ := intText_append_inj closed closed' same
    exact ⟨rfl, rest⟩
  | @str s =>
    intro y cs cs' discrete' _ _ same
    have kind := Discrete.str.kind_eq discrete' same
    cases discrete' <;> cases kind
    obtain ⟨rfl, rest⟩ := quote_append_inj same
    exact ⟨rfl, rest⟩
  | @list elements each ih =>
    intro y cs cs' discrete' _ _ same
    have kind := (Discrete.list each).kind_eq discrete' same
    cases discrete' <;> cases kind
    next elements' each' =>
    simp only [text_list, List.cons_append, List.append_assoc, List.cons.injEq, true_and,
      List.nil_append] at same
    obtain ⟨rfl, rest⟩ := intercalate_inj ih begins_text (by decide) (by decide) each each' same
    exact ⟨rfl, rest⟩
  | @dict entries keys values ihKeys ihValues =>
    intro y cs cs' discrete' _ _ same
    have kind := (Discrete.dict keys values).kind_eq discrete' same
    cases discrete' <;> cases kind
    next entries' keys' values' =>
    simp only [text_dict, List.cons_append, List.append_assoc, List.cons.injEq, true_and,
      List.nil_append] at same
    have each : ∀ e ∈ entries, Distinctive entryText DiscreteEntry e :=
      fun e member => distinctive_entryText (ihKeys e member) (ihValues e member)
    obtain ⟨rfl, rest⟩ := intercalate_inj each begins_entryText (by decide) (by decide)
      (fun e member => ⟨keys e member, values e member⟩)
      (fun e member => ⟨keys' e member, values' e member⟩) same
    exact ⟨rfl, rest⟩

/-- Trees with one canonical form are one tree. -/
theorem Discrete.text_inj {x y : Data} (discrete : x.Discrete) (discrete' : y.Discrete)
    (same : x.text = y.text) : x = y := by
  have whole : x.text.toList ++ [] = y.text.toList ++ [] := by rw [same]
  have closed : Closed [] := nofun
  exact (discrete.distinctive discrete' closed closed whole).1

end Shiba.Data

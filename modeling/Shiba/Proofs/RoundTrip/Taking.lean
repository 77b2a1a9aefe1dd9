import Mathlib.Data.List.Forall2
import Shiba.Proofs.RoundTrip.Token
import Shiba.Source.Parser

/-!
# Parsers that take given tokens

What a parser does with a sequence that starts with given tokens, whatever their places are.

* `Parser.Takes p ls rest P`: where a sequence spells `ls` and then `rest`, the parser takes `ls`, leaves
  `rest`, and answers something of which `P` holds.
* `Parser.Leads p ls rest next` is about loops that go on behind `ls`: the parser does what one of the
  parsers `next` does with `rest`.  Taking is the case in which nothing is left to be done.

There is one rule for each of the steps parsers are made of, and one for items divided by commas.
-/

namespace Shiba

/-! ## The front of a sequence -/

namespace Tokens

variable {ts : Tokens} {l : Lexeme} {ls : List Lexeme}

theorem Spells.front (spells : ts.Spells ls) : ∃ t, ts.front = .ok t ∧ t.lexeme = Lexeme.first ls := by
  rcases ts with ⟨- | ⟨t, list⟩, ending⟩
  · obtain ⟨p, rfl⟩ := spells.complete
    exact ⟨⟨.eof, p⟩, rfl, by rw [← spells.lexemes]; rfl⟩
  · exact ⟨t, rfl, by rw [← spells.lexemes]; rfl⟩

theorem Spells.rest (spells : ts.Spells (l :: ls)) : ts.rest.Spells ls := by
  rcases ts with ⟨- | ⟨t, list⟩, ending⟩
  · cases spells.lexemes
  · exact ⟨(List.cons.inj spells.lexemes).2, spells.complete⟩

/-- Newlines at the front are skipped up to the first token that is none. -/
theorem Spells.skipNewlines {n : Nat} (spells : ts.Spells (List.replicate n .newline ++ ls))
    (other : Lexeme.first ls ≠ .newline) : ts.skipNewlines.Spells ls := by
  rcases ts with ⟨list, ending⟩
  refine ⟨?_, spells.complete⟩
  have lexemes : list.map (·.lexeme) = List.replicate n .newline ++ ls := spells.lexemes
  change (list.dropWhile fun t => decide (t.lexeme = .newline)).map (·.lexeme) = ls
  clear spells
  induction n generalizing list with
  | zero =>
    cases list with
    | nil => exact lexemes
    | cons t list =>
      have head : t.lexeme = Lexeme.first ls := by
        rw [← show t.lexeme :: list.map (·.lexeme) = ls from lexemes]
        rfl
      rw [List.dropWhile_cons_of_neg (by simpa [head] using other)]
      exact lexemes
  | succ n ih =>
    cases list with
    | nil => cases lexemes
    | cons t list =>
      obtain ⟨head, tail⟩ := List.cons.inj lexemes
      rw [List.dropWhile_cons_of_pos (by simpa using head)]
      exact ih list tail

end Tokens

namespace Parser

variable {α β : Type} {p : Parser α} {f : α → Parser β} {ls ls' rest : List Lexeme} {l : Lexeme}
  {P Q : α → Prop} {mode : Mode}

/-! ## Taking and leading -/

/-- On a sequence that spells `ls` and then `rest`, a parser does what one of the parsers `next` does on
a sequence that spells `rest`. -/
def Leads (p : Parser α) (ls rest : List Lexeme) (next : Parser α → Prop) : Prop :=
  ∀ ts : Tokens, ts.Spells (ls ++ rest) →
    ∃ q ts', next q ∧ ts'.Spells rest ∧ p.run ts = q.run ts'

/-- On a sequence that spells `ls` and then `rest`, a parser takes `ls` and answers something of which
`P` holds. -/
def Takes (p : Parser α) (ls rest : List Lexeme) (P : α → Prop) : Prop :=
  p.Leads ls rest fun q => ∃ x, P x ∧ q = pure x

theorem Takes.run (takes : p.Takes ls rest P) {ts : Tokens} (spells : ts.Spells (ls ++ rest)) :
    ∃ x ts', P x ∧ ts'.Spells rest ∧ p.run ts = .ok (x, ts') := by
  obtain ⟨q, ts', ⟨x, holds, rfl⟩, left, run⟩ := takes ts spells
  exact ⟨x, ts', holds, left, run⟩

theorem Takes.run_all (takes : p.Takes ls [] P) {ts : Tokens} (spells : ts.Spells ls) :
    ∃ x place, P x ∧ p.run ts = .ok (x, ⟨[], .complete place⟩) := by
  rw [← List.append_nil ls] at spells
  obtain ⟨x, ⟨list, ending⟩, holds, left, run⟩ := takes.run spells
  obtain ⟨place, rfl⟩ := left.complete
  obtain rfl := List.map_eq_nil_iff.1 left.lexemes
  exact ⟨x, place, holds, run⟩

theorem takes_pure {x : α} (holds : P x) : (pure x : Parser α).Takes [] rest P :=
  fun ts spells => ⟨pure x, ts, ⟨x, holds, rfl⟩, spells, rfl⟩

theorem Takes.mono (takes : p.Takes ls rest P) (weaker : ∀ x, P x → Q x) : p.Takes ls rest Q := by
  intro ts spells
  obtain ⟨q, ts', ⟨x, holds, same⟩, left, run⟩ := takes ts spells
  exact ⟨q, ts', ⟨x, weaker x holds, same⟩, left, run⟩

theorem Leads.trans {next next' : Parser α → Prop} (leads : p.Leads ls (ls' ++ rest) next)
    (goesOn : ∀ q, next q → q.Leads ls' rest next') : p.Leads (ls ++ ls') rest next' := by
  intro ts spells
  rw [List.append_assoc] at spells
  obtain ⟨q, ts', isNext, left, run⟩ := leads ts spells
  obtain ⟨q', ts'', isNext', left', run'⟩ := goesOn q isNext ts' left
  exact ⟨q', ts'', isNext', left', run.trans run'⟩

theorem run_bind_of_ok {x : α} {ts ts' : Tokens} (run : p.run ts = .ok (x, ts')) :
    (p >>= f).run ts = (f x).run ts' := by
  rw [StateT.run_bind, run]
  rfl

/-- What follows a parser starts where that parser has stopped. -/
theorem Takes.bind {next : Parser β → Prop} (takes : p.Takes ls (ls' ++ rest) P)
    (goesOn : ∀ x, P x → (f x).Leads ls' rest next) : (p >>= f).Leads (ls ++ ls') rest next := by
  intro ts spells
  rw [List.append_assoc] at spells
  obtain ⟨q, ts', ⟨x, holds, rfl⟩, left, run⟩ := takes ts spells
  obtain ⟨q', ts'', isNext, left', run'⟩ := goesOn x holds ts' left
  exact ⟨q', ts'', isNext, left', (run_bind_of_ok run).trans run'⟩

/-- The answer of a parser that has taken everything is handed on. -/
theorem Takes.bind_last {next : Parser β → Prop} (takes : p.Takes ls rest P)
    (goesOn : ∀ x, P x → (f x).Leads [] rest next) : (p >>= f).Leads ls rest next := by
  rw [← List.append_nil ls]
  exact Takes.bind takes goesOn

theorem leads_self {next : Parser α → Prop} (isNext : next p) : p.Leads [] rest next :=
  fun ts spells => ⟨p, ts, isNext, spells, rfl⟩

/-! ## The steps of parsers -/

theorem run_peek {ts : Tokens} (spells : ts.Spells ls)
    (settled : mode.multiline = true → Lexeme.first ls ≠ .newline) :
    ∃ place ts', ts'.Spells ls ∧ (peek mode).run ts = .ok (⟨Lexeme.first ls, place⟩, ts') := by
  have front : ∀ ts' : Tokens, ts'.Spells ls → ∃ place,
      (MonadExcept.ofExcept ts'.front : Parser Token).run ts' = .ok (⟨Lexeme.first ls, place⟩, ts') := by
    intro ts' spells'
    obtain ⟨⟨lexeme, place⟩, front, rfl⟩ := spells'.front
    exact ⟨place, by rw [front]; rfl⟩
  by_cases multiline : mode.multiline = true
  · have skipped := spells.skipNewlines (n := 0) (settled multiline)
    obtain ⟨place, run⟩ := front ts.skipNewlines skipped
    refine ⟨place, ts.skipNewlines, skipped, ?_⟩
    rw [← run]
    simp only [peek, multiline, if_true]
    rfl
  · obtain ⟨place, run⟩ := front ts spells
    refine ⟨place, ts, spells, ?_⟩
    rw [← run]
    simp only [peek, multiline]
    rfl

/-- A lexeme that no mode looks past. -/
class Stays (l : Lexeme) : Prop where
  other : l ≠ .newline

instance {name : String} : Stays (.ident name) := ⟨by simp⟩

instance {text : String} : Stays (.string text) := ⟨by simp⟩

instance {text : String} : Stays (.number text) := ⟨by simp⟩

instance {word : Keyword} : Stays (.keyword word) := ⟨by simp⟩

instance {mark : Punctuator} : Stays (.punct mark) := ⟨by simp⟩

instance {text : String} : Stays (.comment text) := ⟨by simp⟩

/-- Looking at the front, where in a mode that skips newlines there is none. -/
theorem peek_bind {f : Token → Parser β} {next : Parser β → Prop}
    (settled : mode.multiline = true → Lexeme.first (ls ++ rest) ≠ .newline)
    (goesOn : ∀ place, (f ⟨Lexeme.first (ls ++ rest), place⟩).Leads ls rest next) :
    (peek mode >>= f).Leads ls rest next := by
  intro ts spells
  obtain ⟨place, ts', spells', run⟩ := run_peek spells settled
  obtain ⟨q, ts'', isNext, left, run'⟩ := goesOn place ts' spells'
  exact ⟨q, ts'', isNext, left, (run_bind_of_ok run).trans run'⟩

theorem peek_bind_cons [Stays l] {f : Token → Parser β} {next : Parser β → Prop}
    (goesOn : ∀ place, (f ⟨l, place⟩).Leads (l :: ls) rest next) :
    (peek mode >>= f).Leads (l :: ls) rest next :=
  peek_bind (fun _ => Stays.other (l := l)) goesOn

/-- A token that is taken. -/
theorem next_bind [Stays l] {f : Token → Parser β} {next' : Parser β → Prop}
    (goesOn : ∀ place, (f ⟨l, place⟩).Leads ls rest next') :
    (next mode >>= f).Leads (l :: ls) rest next' := by
  intro ts spells
  obtain ⟨place, ts', spells', run⟩ := run_peek spells fun _ => Stays.other (l := l)
  obtain ⟨q, ts'', isNext, left, run'⟩ := goesOn place ts'.rest spells'.rest
  have taken : (Parser.next mode).run ts = .ok (⟨l, place⟩, ts'.rest) := run_bind_of_ok run
  exact ⟨q, ts'', isNext, left, (run_bind_of_ok taken).trans run'⟩

theorem consume_bind [Stays l] {f : Token → Parser β} {next : Parser β → Prop}
    (goesOn : ∀ place, (f ⟨l, place⟩).Leads ls rest next) :
    (consume mode l >>= f).Leads (l :: ls) rest next := by
  rw [consume, bind_assoc]
  refine peek_bind_cons fun place => ?_
  rw [if_pos rfl]
  exact next_bind goesOn

theorem consumeMark_bind {mark : Punctuator} {f : Token → Parser β} {next : Parser β → Prop}
    (goesOn : ∀ place, (f ⟨.punct mark, place⟩).Leads ls rest next) :
    (consumeMark mode mark >>= f).Leads (.punct mark :: ls) rest next :=
  consume_bind goesOn

theorem consumeName_bind {name : String} {f : Ident → Parser β} {next : Parser β → Prop}
    (goesOn : ∀ place, (f ⟨place, name⟩).Leads ls rest next) :
    (consumeName mode >>= f).Leads (.ident name :: ls) rest next := by
  rw [consumeName, bind_assoc]
  refine peek_bind_cons fun place => ?_
  change ((Parser.next mode >>= fun _ => pure ⟨place, name⟩) >>= f).Leads _ _ _
  rw [bind_assoc]
  refine next_bind fun _ => ?_
  rw [pure_bind]
  exact goesOn place

/-- A token at the front that is the one asked for. -/
theorem atLexeme_bind [Stays l] {f : Bool → Parser β} {next : Parser β → Prop}
    (found : Lexeme.first (ls ++ rest) = l) (goesOn : (f true).Leads ls rest next) :
    (atLexeme mode l >>= f).Leads ls rest next := by
  rw [atLexeme, bind_assoc]
  refine peek_bind (fun _ => found ▸ Stays.other) fun place => ?_
  rw [pure_bind, found, decide_eq_true rfl]
  exact goesOn

theorem atMark_bind {mark : Punctuator} {f : Bool → Parser β} {next : Parser β → Prop}
    (found : Lexeme.first (ls ++ rest) = .punct mark) (goesOn : (f true).Leads ls rest next) :
    (atMark mode mark >>= f).Leads ls rest next :=
  atLexeme_bind found goesOn

theorem notAtMark_bind {mark : Punctuator} {f : Bool → Parser β} {next : Parser β → Prop}
    (settled : mode.multiline = true → Lexeme.first (ls ++ rest) ≠ .newline)
    (other : Lexeme.first (ls ++ rest) ≠ .punct mark) (goesOn : (f false).Leads ls rest next) :
    (atMark mode mark >>= f).Leads ls rest next := by
  rw [atMark, atLexeme, bind_assoc]
  refine peek_bind settled fun place => ?_
  rw [pure_bind, decide_eq_false other]
  exact goesOn

theorem get_bind {f : Tokens → Parser β} {next : Parser β → Prop}
    (goesOn : ∀ ts, (f ts).Leads ls rest next) : (get >>= f).Leads ls rest next :=
  fun ts spells => goesOn ts ts spells

/-- A parser that looks ahead and then goes back to where it was. -/
theorem takes_restored {p : Tokens → Parser α} {x : α}
    (looks : ∀ ts : Tokens, ts.Spells rest → (p ts).run ts = .ok (x, ts)) :
    (get >>= p).Takes [] rest (· = x) :=
  fun ts spells => ⟨pure x, ts, ⟨x, rfl, rfl⟩, spells, looks ts spells⟩

theorem skipNewlines_bind {n : Nat} {f : Unit → Parser β} {next : Parser β → Prop}
    (goesOn : (f ()).Leads ls rest next) (other : Lexeme.first (ls ++ rest) ≠ .newline) :
    (skipNewlines >>= f).Leads (List.replicate n .newline ++ ls) rest next := by
  intro ts spells
  rw [List.append_assoc] at spells
  have skipped := spells.skipNewlines other
  obtain ⟨t, front, -⟩ := skipped.front
  obtain ⟨q, ts', isNext, left, run⟩ := goesOn ts.skipNewlines skipped
  refine ⟨q, ts', isNext, left, ?_⟩
  rw [← run]
  change (((MonadExcept.ofExcept ts.skipNewlines.front : Parser Token) >>= fun _ => pure ()) >>= f).run
    ts.skipNewlines = _
  rw [front]
  rfl

theorem skipNewline_bind {f : Unit → Parser β} {next : Parser β → Prop}
    (goesOn : (f ()).Leads ls rest next) (other : Lexeme.first (ls ++ rest) ≠ .newline) :
    (skipNewlines >>= f).Leads (.newline :: ls) rest next :=
  skipNewlines_bind (n := 1) goesOn other

/-! ## Items divided by commas -/

/-- The tokens of some items, divided by commas. -/
def commas (items : List (List Lexeme)) : List Lexeme := [.punct .comma].intercalate items

theorem commas_cons_cons (item item' : List Lexeme) (items : List (List Lexeme)) :
    commas (item :: item' :: items) = item ++ .punct .comma :: commas (item' :: items) := by
  rw [commas, List.intercalate_cons_cons, List.append_assoc, List.singleton_append, commas]

theorem commas_singleton (item : List Lexeme) : commas [item] = item := by
  simp [commas, List.intercalate]

theorem length_le_commas {items : List (List Lexeme)} (nonempty : ∀ item ∈ items, item ≠ []) :
    items.length ≤ (commas items).length := by
  induction items with
  | nil => exact Nat.zero_le _
  | cons item items ih =>
    have here := List.length_pos_iff.2 (nonempty item List.mem_cons_self)
    have later := ih fun item member => nonempty item (List.mem_cons_of_mem _ member)
    cases items with
    | nil =>
      rw [commas_singleton]
      exact here
    | cons item' items =>
      simp only [commas_cons_cons, List.length_append, List.length_cons] at later ⊢
      omega

theorem length_le_commas_of_mem {items : List (List Lexeme)} {item : List Lexeme}
    (member : item ∈ items) : item.length ≤ (commas items).length := by
  induction items with
  | nil => cases member
  | cons item' items ih =>
    cases items with
    | nil => exact Nat.le_of_eq (by rw [commas_singleton, List.mem_singleton.1 member])
    | cons item'' items =>
      rw [commas_cons_cons, List.length_append, List.length_cons]
      rcases List.mem_cons.1 member with rfl | later
      · omega
      · have inside := ih later
        omega

/-- What an item parser does with the items of a bracket: `tokens` is how an item is written, and
`Fits` says of an answer that it is the item.  An item can be told from the closing bracket. -/
structure Items {γ : Type} (item : Parser α) (close : Punctuator) (tokens : γ → List Lexeme)
    (Fits : α → γ → Prop) (x : γ) : Prop where
  first : Lexeme.first (tokens x) ≠ .eof ∧ Lexeme.first (tokens x) ≠ .newline ∧
    Lexeme.first (tokens x) ≠ .punct close
  takes : ∀ rest, Lexeme.first rest = .punct .comma ∨ Lexeme.first rest = .punct close →
    item.Takes (tokens x) rest (Fits · x)

theorem first_append {ls rest : List Lexeme} (some : Lexeme.first ls ≠ .eof) :
    Lexeme.first (ls ++ rest) = Lexeme.first ls := by
  cases ls with
  | nil => exact absurd rfl some
  | cons l ls => rfl

theorem ne_nil_of_first {ls : List Lexeme} (some : Lexeme.first ls ≠ .eof) : ls ≠ [] := by
  rintro rfl
  exact some rfl

section

variable {γ : Type} {item : Parser α} {close : Punctuator} {tokens : γ → List Lexeme}
  {Fits : α → γ → Prop}

theorem length_le_items {xs : List γ} (items : ∀ x ∈ xs, Items item close tokens Fits x) :
    xs.length ≤ (commas (xs.map tokens)).length := by
  have all := length_le_commas
    (List.forall_mem_map.2 fun x member => ne_nil_of_first (items x member).first.1)
  rwa [List.length_map] at all

theorem first_commas {x : γ} (xs : List γ) (some : Lexeme.first (tokens x) ≠ .eof) :
    Lexeme.first (commas ((x :: xs).map tokens) ++ rest) = Lexeme.first (tokens x) := by
  cases xs with
  | nil => rw [List.map_cons, List.map_nil, commas_singleton, first_append some]
  | cons y ys =>
    rw [List.map_cons, List.map_cons, commas_cons_cons, List.append_assoc, first_append some]

/-- Items are taken one after another up to the closing bracket.  The induction is on the items. -/
theorem takes_separated {xs : List γ} (notComma : close ≠ .comma)
    (items : ∀ x ∈ xs, Items item close tokens Fits x)
    {fuel : Nat} (enough : xs.length < fuel) :
    (separated item close fuel).Takes (commas (xs.map tokens)) (.punct close :: rest)
      fun ys => List.Forall₂ Fits ys xs := by
  induction xs generalizing fuel with
  | nil =>
    cases fuel with
    | zero => cases enough
    | succ fuel => exact atMark_bind rfl (takes_pure .nil)
  | cons x xs ih =>
    cases fuel with
    | zero => cases enough
    | succ fuel =>
      have here := items x List.mem_cons_self
      have later := fun y member => items y (List.mem_cons_of_mem x member)
      refine notAtMark_bind ?_ ?_ ?_
      · intro _
        rw [first_commas xs here.first.1]
        exact here.first.2.1
      · rw [first_commas xs here.first.1]
        exact here.first.2.2
      · cases xs with
        | nil =>
          rw [List.map_cons, List.map_nil, commas_singleton]
          apply (here.takes _ (.inr rfl)).bind_last
          intro y fits
          refine notAtMark_bind nofun (fun same => notComma (Lexeme.punct.inj same)) ?_
          exact takes_pure (.cons fits .nil)
        | cons x' xs =>
          rw [List.map_cons, List.map_cons, commas_cons_cons]
          apply (here.takes _ (.inl rfl)).bind
          intro y fits
          refine atMark_bind rfl (next_bind fun _ => ?_)
          apply (ih later (Nat.lt_of_succ_lt_succ enough)).bind_last
          intro ys fitting
          exact takes_pure (.cons fits fitting)

/-- Items between two brackets. -/
theorem enclosed_bind {xs : List γ} {opening : Punctuator} {fuel : Nat}
    {f : Token × List α → Parser β} {next : Parser β → Prop} (notComma : close ≠ .comma)
    (items : ∀ x ∈ xs, Items item close tokens Fits x)
    (enough : (commas (xs.map tokens)).length < fuel)
    (goesOn : ∀ place ys, List.Forall₂ Fits ys xs →
      (f (⟨.punct opening, place⟩, ys)).Leads ls rest next) :
    (enclosed item opening close fuel >>= f).Leads
      (.punct opening :: (commas (xs.map tokens) ++ .punct close :: ls)) rest next := by
  have count := length_le_items items
  rw [enclosed, bind_assoc]
  refine consumeMark_bind fun place => ?_
  rw [bind_assoc]
  apply (takes_separated notComma items (Nat.lt_of_le_of_lt count enough)).bind
  intro ys fitting
  rw [bind_assoc]
  refine consumeMark_bind fun _ => ?_
  rw [pure_bind]
  exact goesOn place ys fitting

end

end Parser

end Shiba

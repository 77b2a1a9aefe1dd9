import Shiba.Proofs.Prompt
import Shiba.Proofs.Stepwise.Erase
import Shiba.Proofs.Stepwise.Newline
import Shiba.Proofs.ViablePrefix

/-!
# A statement entered line by line

The prompt joins the lines of a statement with blanks, where a file has newlines.  That makes no
difference as long as the line breaks only divide tokens (`LineBreaksDivide`): a string that goes on
behind a line break holds a blank instead of a newline, a comment goes on over the next lines, and a
statement in a block that should end with its line can go on with the next one.

* `Repl.run_statement`: a statement entered on several lines is run as a file would run it, and then the
  prompt is the primary one.
-/

namespace Shiba

open Stepwise

/-- The text only ended too early. -/
def Program.Incomplete (s : String) : Prop :=
  ∃ failure, Program.parse s = .error failure ∧ failure.fault.incomplete = true

/-- Lines that make up one statement, but only with the last of them. -/
structure EnteredOnLines (lines : List String) (s : Stmt) : Prop where
  several : 2 ≤ lines.length
  single : ∀ l ∈ lines, '\n' ∉ l.toList
  whole : Program.parse ("\n".intercalate lines) = .ok [s]
  early : ∀ n, 0 < n → n < lines.length → Program.Incomplete ("\n".intercalate (lines.take n))

/-- The line breaks only divide tokens: no string goes on behind one, no comment ends at one, and none ends
a statement that would go on without it. -/
structure LineBreaksDivide (lines : List String) : Prop where
  closed : ∀ l ∈ lines, ∃ p, (Tokens.ofText l).ending = .complete p
  uncommented : ∀ l ∈ lines, ∀ t ∈ (Tokens.ofText l).list, t.lexeme.isComment = false
  unneeded : ¬NeedsNewline .initial (Tokens.ofText ("\n".intercalate lines)).list

/-! ## The tokens of lines -/

namespace Tokens

variable {lines : List String}

/-- What the tokens of a text say. -/
def lexemes (s : String) : List Lexeme := (Tokens.ofText s).list.map (·.lexeme)

theorem spells_lexemes {s : String} (closed : ∃ p, (Tokens.ofText s).ending = .complete p) :
    (Tokens.ofText s).Spells (lexemes s) := ⟨rfl, closed⟩

/-- Lines divided by newlines. -/
theorem spells_lines (some : lines ≠ [])
    (closed : ∀ l ∈ lines, ∃ p, (Tokens.ofText l).ending = .complete p) :
    (Tokens.ofText ("\n".intercalate lines)).Spells ([Lexeme.newline].intercalate (lines.map lexemes)) := by
  induction lines with
  | nil => exact absurd rfl some
  | cons l lines ih =>
    have ⟨here, later⟩ := List.forall_mem_cons.1 closed
    cases lines with
    | nil => simpa using spells_lexemes here
    | cons l' lines =>
      have tail := ih nofun later
      have text (s : String) : ("\n" ++ s).toList = '\n' :: s.toList := String.toList_append
      rw [String.intercalate_cons_cons, List.map_cons, List.map_cons, List.intercalate_cons_cons,
        String.append_assoc, Program.tokens_ofText_append, text, List.append_assoc]
      refine Reader.spells_append ?_ (spells_lexemes here) ?_ ?_
      · rintro c ⟨⟩
        exact .inr rfl
      · obtain ⟨lexemes, complete⟩ := Reader.spells_place (Position.start.after '\n') tail
        rw [Reader.tokens_newline]
        exact ⟨congrArg (Lexeme.newline :: ·) lexemes, complete⟩
      · rintro text - c ⟨⟩
        rfl

/-- Lines with blanks behind them. -/
theorem spells_buffer (closed : ∀ l ∈ lines, ∃ p, (Tokens.ofText l).ending = .complete p)
    (uncommented : ∀ l ∈ lines, ∀ t ∈ (Tokens.ofText l).list, t.lexeme.isComment = false) :
    (Tokens.ofText (String.join (lines.map (· ++ " ")))).Spells (lines.map lexemes).flatten := by
  induction lines with
  | nil => exact ⟨rfl, _, rfl⟩
  | cons l lines ih =>
    have ⟨here, later⟩ := List.forall_mem_cons.1 closed
    have ⟨plain, plain'⟩ := List.forall_mem_cons.1 uncommented
    have tail := ih later plain'
    have text (s : String) : (" " ++ s).toList = ' ' :: s.toList := String.toList_append
    rw [List.map_cons, String.join_cons, List.map_cons, List.flatten_cons, String.append_assoc,
      Program.tokens_ofText_append, text]
    refine Reader.spells_append ?_ (spells_lexemes here) ?_ ?_
    · rintro c ⟨⟩
      exact .inl rfl
    · rw [Reader.tokens_blank]
      exact Reader.spells_place _ tail
    · intro text comment
      obtain ⟨t, member, same⟩ := List.mem_map.1 comment
      have no := plain t member
      rw [same] at no
      cases no

/-- Without the newlines, divided lines are the lines one after another. -/
theorem filter_newlines {lss : List (List Lexeme)} (single : ∀ ls ∈ lss, Lexeme.newline ∉ ls) :
    ([Lexeme.newline].intercalate lss).filter (· ≠ .newline) = lss.flatten := by
  induction lss with
  | nil => rfl
  | cons ls lss ih =>
    have ⟨here, later⟩ := List.forall_mem_cons.1 single
    have all : ls.filter (· ≠ .newline) = ls :=
      List.filter_eq_self.2 fun l member => decide_eq_true fun same => here (same ▸ member)
    cases lss with
    | nil => simpa using all
    | cons ls' lss =>
      rw [List.intercalate_cons_cons, List.filter_append, ih later, List.filter_append, all]
      simp

theorem newline_not_mem_lexemes {l : String} (single : '\n' ∉ l.toList) : Lexeme.newline ∉ lexemes l := by
  intro member
  obtain ⟨t, inside, same⟩ := List.mem_map.1 member
  exact Reader.ne_newline_of_mem_tokens single inside same

theorem Spells.erase {ts : Tokens} {ls : List Lexeme} (spells : ts.Spells ls) :
    ts.erase = ⟨ls.map (⟨·, .start⟩), .complete .start⟩ := by
  obtain ⟨list, ending⟩ := ts
  obtain ⟨rfl, p, ⟨⟩⟩ := spells
  simp only [Tokens.erase, List.map_map]
  rfl

end Tokens

/-! ## Joining lines -/

/-- The lines as the prompt joins them. -/
def buffered (lines : List String) : String := String.join (lines.map (· ++ " "))

namespace LineBreaksDivide

variable {lines before after : List String} {r : Reading}

/-- With blanks for newlines, lines make the same program up to positions. -/
theorem ofText_buffered (divide : LineBreaksDivide lines) (some : lines ≠ [])
    (single : ∀ l ∈ lines, '\n' ∉ l.toList)
    (reads : Reading.initial.reads (Tokens.ofText ("\n".intercalate lines)).list = .ok r) :
    (Program.ofText (buffered lines)).erase = (Program.ofText ("\n".intercalate lines)).erase := by
  have joined : (Tokens.ofText (buffered lines)).Spells (lines.map Tokens.lexemes).flatten :=
    Tokens.spells_buffer divide.closed divide.uncommented
  have divided := Tokens.spells_lines some divide.closed
  have unneeded := divide.unneeded
  simp only [Program.ofText_eq_run, ← Reading.run_erase]
  generalize Tokens.ofText ("\n".intercalate lines) = ts at *
  obtain ⟨list, ending⟩ := ts
  obtain ⟨lexemes, p, ⟨⟩⟩ := divided
  -- the tokens without the newlines say the same as those of the joined lines
  have shown : Tokens.Spells ⟨list.filter visible, .complete p⟩ (lines.map Tokens.lexemes).flatten := by
    refine ⟨?_, p, rfl⟩
    rw [← Tokens.filter_newlines (List.forall_mem_map.2 fun l member =>
      Tokens.newline_not_mem_lexemes (single l member)), ← lexemes, List.filter_map]
    rfl
  rw [joined.erase, ← shown.erase, Reading.run_erase, Reading.run_erase, Reading.run_filter unneeded reads]

/-- What holds of lines holds of the first of them. -/
theorem of_append (divide : LineBreaksDivide (before ++ after)) (some : before ≠ [])
    (reads : Reading.initial.reads (Tokens.ofText ("\n".intercalate (before ++ after))).list = .ok r) :
    LineBreaksDivide before ∧
      ∃ r', Reading.initial.reads (Tokens.ofText ("\n".intercalate before)).list = .ok r' := by
  have closed := (List.forall_mem_append.1 divide.closed).1
  have uncommented := (List.forall_mem_append.1 divide.uncommented).1
  -- the tokens of the first lines are the first of the tokens
  obtain ⟨more, longer⟩ : ∃ more, (Tokens.ofText ("\n".intercalate (before ++ after))).list =
      (Tokens.ofText ("\n".intercalate before)).list ++ more := by
    by_cases rest : after = []
    · exact ⟨[], by rw [rest, List.append_nil, List.append_nil]⟩
    · obtain ⟨p, complete⟩ := (Tokens.spells_lines some closed).complete
      have text (s : String) : ("\n" ++ s).toList = '\n' :: s.toList := String.toList_append
      rw [String.intercalate_append_of_ne_nil some rest, String.append_assoc, Program.tokens_ofText_append,
        text, Reader.tokens_append ?_ complete ?_]
      · exact ⟨_, rfl⟩
      · rintro c ⟨⟩
        exact .inr rfl
      · rintro t - - c ⟨⟩
        rfl
  refine ⟨⟨closed, uncommented, fun needs => divide.unneeded (longer ▸ needs.append more)⟩, ?_⟩
  rw [longer] at reads
  cases first : Reading.initial.reads (Tokens.ofText ("\n".intercalate before)).list with
  | ok r' => exact ⟨r', rfl⟩
  | error program =>
    rw [Reading.reads_append_error first] at reads
    cases reads

end LineBreaksDivide

/-! ## At the prompt -/

namespace EnteredOnLines

variable {lines before after : List String} {s : Stmt}

/-- The lines of a valid text can all be read. -/
theorem reads (entered : EnteredOnLines lines s) :
    ∃ r, Reading.initial.reads (Tokens.ofText ("\n".intercalate lines)).list = .ok r := by
  cases reads : Reading.initial.reads (Tokens.ofText ("\n".intercalate lines)).list with
  | ok r => exact ⟨r, rfl⟩
  | error program => exact absurd entered.whole (Program.parse_ne_ok_of_reads_error reads)

/-- The first of the lines make the same program, joined with blanks. -/
theorem ofText_buffered (entered : EnteredOnLines (before ++ after) s)
    (divide : LineBreaksDivide (before ++ after)) (some : before ≠ []) :
    (Program.ofText (buffered before)).erase = (Program.ofText ("\n".intercalate before)).erase := by
  obtain ⟨r, reads⟩ := entered.reads
  obtain ⟨first, r', reads'⟩ := divide.of_append some reads
  exact first.ofText_buffered some (List.forall_mem_append.1 entered.single).1 reads'

/-- Before the last line, the joined lines ended too early. -/
theorem incomplete_buffered (entered : EnteredOnLines (before ++ after) s)
    (divide : LineBreaksDivide (before ++ after)) (some : before ≠ []) (more : after ≠ []) :
    Program.Incomplete (buffered before) := by
  have same := congrArg Program.ending (entered.ofText_buffered divide some)
  obtain ⟨failure, error, incomplete⟩ : Program.Incomplete ("\n".intercalate before) := by
    have inside : before.length < (before ++ after).length := by
      rw [List.length_append]
      exact Nat.lt_add_of_pos_right (List.length_pos_of_ne_nil more)
    simpa using entered.early before.length (List.length_pos_of_ne_nil some) inside
  simp only [Program.erase, Program.parse_eq_error_iff.1 error, Ending.erase] at same
  cases ending : (Program.ofText (buffered before)).ending with
  | complete p =>
    rw [ending] at same
    cases same
  | failed failure' =>
    rw [ending] at same
    obtain ⟨fault, -⟩ := Source.Failure.mk.inj (Ending.failed.inj same)
    exact ⟨failure', Program.parse_eq_error_iff.2 ending, fault ▸ incomplete⟩

/-- With the last line, the joined lines are the statement up to positions. -/
theorem parse_buffered (entered : EnteredOnLines lines s) (divide : LineBreaksDivide lines) :
    ∃ s', Program.parse (buffered lines) = .ok [s'] ∧ s'.erase = s.erase := by
  obtain ⟨r, reads⟩ := entered.reads
  have some : lines ≠ [] := List.ne_nil_of_length_pos (Nat.lt_of_lt_of_le Nat.two_pos entered.several)
  have same := divide.ofText_buffered some entered.single reads
  obtain ⟨statements, p, ending⟩ := Program.parse_eq_ok_iff.1 entered.whole
  obtain ⟨statements', ending'⟩ := Program.mk.inj same
  have one : ∃ s', (Program.ofText (buffered lines)).statements = [s'] ∧ s'.erase = s.erase := by
    rw [statements] at statements'
    cases found : (Program.ofText (buffered lines)).statements with
    | nil =>
      rw [found] at statements'
      cases statements'
    | cons s' rest =>
      rw [found] at statements'
      obtain ⟨here, later⟩ := List.cons.inj statements'
      cases rest with
      | nil => exact ⟨s', rfl, here⟩
      | cons => cases later
  have complete : ∃ p, (Program.ofText (buffered lines)).ending = .complete p := by
    rw [ending] at ending'
    cases found : (Program.ofText (buffered lines)).ending with
    | complete p => exact ⟨p, rfl⟩
    | failed failure =>
      rw [found] at ending'
      cases ending'
  obtain ⟨s', found, same⟩ := one
  exact ⟨s', Program.parse_eq_ok_iff.2 ⟨found, complete⟩, same⟩

end EnteredOnLines

namespace Repl

variable {lines : List String} {s : Stmt}

/-- Nothing is written. -/
def quiet : Reply := ⟨"", ""⟩

theorem prompt_of_fresh {r : Repl} (fresh : r.buffer = "") : r.prompt = "shiba>>> " := by
  simp [prompt, fresh]

theorem prompt_of_buffer {r : Repl} (more : r.buffer ≠ "") : r.prompt = "shiba... " := by
  simp [prompt, more]

/-- A text that only ended too early does not crash. -/
theorem refuse_of_incomplete {failure : Source.Failure} (incomplete : failure.fault.incomplete = true)
    (r : Repl) (buffer : String) : r.refuse buffer failure = (quiet, .ok { r with buffer }) := by
  rcases Stop.ofFailure_eq moduleName failure with ⟨_, crashes, -⟩ | ⟨-, fails⟩
  · rw [Source.Fault.not_incomplete_of_crash? crashes] at incomplete
    cases incomplete
  · rw [refuse, fails]
    exact if_pos incomplete

/-- A line with which the text is still not complete is kept. -/
theorem run_line_of_incomplete (cfg : Config) (r : Repl) (l : String) (inputs : List Input)
    (incomplete : Program.Incomplete (r.buffer ++ l ++ " ")) :
    r.run cfg (.line l :: inputs) =
      ((r.prompt, quiet) :: (run cfg { r with buffer := r.buffer ++ l ++ " " } inputs).1,
        (run cfg { r with buffer := r.buffer ++ l ++ " " } inputs).2) := by
  obtain ⟨failure, error, incomplete⟩ := incomplete
  simp only [run, step_line, error, refuse_of_incomplete incomplete]

/-- What a session does behind a text that was run. -/
def runOn (cfg : Config) (m : ModuleId) (inputs : List Input) :
    Except Finish State → List (String × Reply) × Finish
  | .error finish => ([], finish)
  | .ok s => run cfg ⟨s, m, ""⟩ inputs

/-- A line with which the text is complete is run. -/
theorem run_line_of_ok {cfg : Config} {r : Repl} {l : String} {block : Block}
    {result : Except Stop (Option Int64)} {t : State} (inputs : List Input)
    (parsed : Program.parse (r.buffer ++ l ++ " ") = .ok block)
    (executes : Executes cfg r.module r.state block result t) :
    r.run cfg (.line l :: inputs) =
      ((r.prompt, ⟨outputText t.output, report result⟩) :: (runOn cfg r.module inputs (goOn t result)).1,
        (runOn cfg r.module inputs (goOn t result)).2) := by
  simp only [run, step_line, parsed, runBlock_of_executes executes]
  cases goOn t result <;> rfl

/-- Lines with which the text is still not complete are kept. -/
theorem run_lines_of_incomplete (cfg : Config) (r : Repl) (inputs : List Input) (more : r.buffer ≠ "")
    (incomplete : ∀ before after, lines = before ++ after → before ≠ [] →
      Program.Incomplete (r.buffer ++ buffered before)) :
    r.run cfg (lines.map .line ++ inputs) =
      (List.replicate lines.length ("shiba... ", quiet) ++
        (run cfg { r with buffer := r.buffer ++ buffered lines } inputs).1,
      (run cfg { r with buffer := r.buffer ++ buffered lines } inputs).2) := by
  induction lines generalizing r with
  | nil => simp [buffered]
  | cons l lines ih =>
    have text (before : List String) :
        r.buffer ++ buffered (l :: before) = r.buffer ++ l ++ " " ++ buffered before := by
      simp [buffered, String.append_assoc]
    have here : Program.Incomplete (r.buffer ++ l ++ " ") := by
      have first := incomplete [l] lines rfl nofun
      rw [text] at first
      simpa [buffered] using first
    have later := ih { r with buffer := r.buffer ++ l ++ " " } (by simp) fun before after split _ =>
      text before ▸ incomplete (l :: before) after (by rw [split]; rfl) nofun
    rw [List.map_cons, List.cons_append, run_line_of_incomplete cfg r l _ here, prompt_of_buffer more, later,
      text]
    rfl

/-- A session takes lines that make up a block together: nothing is answered before the last of them, the
statements are entered behind it, and then the prompt is the primary one, unless the session has ended. -/
def TakesTogether (cfg : Config) (r : Repl) (lines : List String) (block : Block) : Prop :=
  ∃ result t, Executes cfg r.module r.state block result t ∧
    (∀ inputs : List Input, r.run cfg (lines.map .line ++ inputs) =
      (("shiba>>> ", quiet) :: (List.replicate (lines.length - 2) ("shiba... ", quiet) ++
        ("shiba... ", ⟨outputText t.output, report result⟩) :: (runOn cfg r.module inputs (goOn t result)).1),
      (runOn cfg r.module inputs (goOn t result)).2)) ∧
    ∀ u, goOn t result = .ok u → prompt ⟨u, r.module, ""⟩ = "shiba>>> "

/-- Lines of which only the last makes the text complete are taken together. -/
theorem takesTogether (cfg : Config) (r : Repl) (first : String) (middle : List String) (last : String)
    {block : Block} (fresh : r.buffer = "")
    (incomplete : ∀ before after, middle = before ++ after → Program.Incomplete (buffered (first :: before)))
    (parsed : Program.parse (buffered (first :: (middle ++ [last]))) = .ok block) :
    TakesTogether cfg r (first :: (middle ++ [last])) block := by
  obtain ⟨result, t, executes⟩ := exists_executes cfg r.module r.state block
  refine ⟨result, t, executes, fun inputs => ?_, fun u _ => prompt_of_fresh rfl⟩
  have text (before : List String) :
      buffered (first :: before) = r.buffer ++ first ++ " " ++ buffered before := by
    simp [buffered, fresh]
  simp only [text] at incomplete parsed
  have here : Program.Incomplete (r.buffer ++ first ++ " ") := by
    simpa [buffered] using incomplete [] middle rfl
  have ends : Program.parse (r.buffer ++ first ++ " " ++ buffered middle ++ last ++ " ") = .ok block := by
    rw [← parsed]
    simp [buffered, String.append_assoc]
  have start := run_line_of_incomplete cfg r first ((middle ++ [last]).map .line ++ inputs) here
  have more : r.buffer ++ first ++ " " ≠ "" := by simp
  generalize r.buffer ++ first ++ " " = opened at *
  have waits := run_lines_of_incomplete cfg { r with buffer := opened } (.line last :: inputs) more
    fun before after split _ => incomplete before after split
  have complete := run_line_of_ok (r := { r with buffer := opened ++ buffered middle }) inputs ends executes
  rw [prompt_of_buffer ?_] at complete
  · rw [List.map_cons, List.cons_append, start, prompt_of_fresh fresh, List.map_append, List.append_assoc,
      List.map_singleton, List.singleton_append, waits, complete]
    simp
  · simp [more]

theorem exists_first_last {lines : List String} (several : 2 ≤ lines.length) :
    ∃ first middle last, lines = first :: (middle ++ [last]) := by
  cases lines with
  | nil => cases several
  | cons first rest =>
    have some : rest ≠ [] := List.ne_nil_of_length_pos (Nat.le_of_succ_le_succ several)
    exact ⟨first, rest.dropLast, rest.getLast some, by rw [List.dropLast_append_getLast]⟩

/-- A statement entered on several lines is run as the statement that the lines make in a file, up to
positions: it is entered once, behind the last line, and then the prompt is the primary one, unless the
statement has exited or its value crashes the session. -/
theorem run_statement (entered : EnteredOnLines lines s) (divide : LineBreaksDivide lines) :
    ∃ s', s'.erase = s.erase ∧ ∀ (cfg : Config) (r : Repl), r.buffer = "" →
      TakesTogether cfg r lines [s'] := by
  obtain ⟨s', parsed, same⟩ := entered.parse_buffered divide
  refine ⟨s', same, fun cfg r fresh => ?_⟩
  obtain ⟨first, middle, last, rfl⟩ := exists_first_last entered.several
  refine takesTogether cfg r first middle last fresh ?_ parsed
  intro before after split
  subst split
  have entered' : EnteredOnLines ((first :: before) ++ (after ++ [last])) s := by simpa using entered
  exact entered'.incomplete_buffered (by simpa using divide) nofun (by simp)

/-- A block whose second statement goes on behind a line break. -/
theorem run_statement_block : ∃ s, EnteredOnLines ["if a \x7b", "b = [1,", "2]", "c(b) \x7d"] s ∧
    LineBreaksDivide ["if a \x7b", "b = [1,", "2]", "c(b) \x7d"] ∧
    ∃ s', s'.erase = s.erase ∧ ∀ (cfg : Config) (r : Repl), r.buffer = "" →
      TakesTogether cfg r ["if a \x7b", "b = [1,", "2]", "c(b) \x7d"] [s'] := by
  have whole : ∃ s, Program.parse ("\n".intercalate ["if a \x7b", "b = [1,", "2]", "c(b) \x7d"]) = .ok [s] :=
    ⟨_, rfl⟩
  obtain ⟨s, whole⟩ := whole
  have entered : EnteredOnLines ["if a \x7b", "b = [1,", "2]", "c(b) \x7d"] s := by
    refine ⟨by decide, by decide, whole, ?_⟩
    rintro (- | - | - | - | n) some inside
    case zero => cases some
    case succ.succ.succ.succ => exact absurd inside (by simp)
    all_goals exact ⟨_, rfl, rfl⟩
  have divide : LineBreaksDivide ["if a \x7b", "b = [1,", "2]", "c(b) \x7d"] := by
    refine ⟨?_, by decide, by decide⟩
    simp only [List.forall_mem_cons]
    exact ⟨⟨_, rfl⟩, ⟨_, rfl⟩, ⟨_, rfl⟩, ⟨_, rfl⟩, nofun⟩
  exact ⟨s, entered, divide, run_statement entered divide⟩

/-- A string that goes on behind a line break holds a blank there, and a newline in a file. -/
theorem run_statement_string : ∃ s s', EnteredOnLines ["\"a", "b\""] s ∧ s'.erase ≠ s.erase ∧
    ∀ (cfg : Config) (r : Repl), r.buffer = "" → TakesTogether cfg r ["\"a", "b\""] [s'] := by
  refine ⟨.expr (.literal .start (.str "a\nb")), .expr (.literal .start (.str "a b")), ?_, ?_, ?_⟩
  · refine ⟨by decide, by decide, rfl, ?_⟩
    rintro (- | - | n) some inside
    case zero => cases some
    case succ.succ => exact absurd inside (by simp)
    exact ⟨_, rfl, rfl⟩
  · simp [Stmt.erase, Expr.erase]
  · intro cfg r fresh
    have incomplete : ∀ before after, [] = before ++ after →
        Program.Incomplete (buffered ("\"a" :: before)) := by
      intro before after nothing
      rw [(List.append_eq_nil_iff.1 nothing.symm).1]
      exact ⟨_, rfl, rfl⟩
    exact takesTogether cfg r "\"a" [] "b\"" fresh incomplete rfl

-- a comment takes up the lines behind it
example : Program.Incomplete (buffered ["def f() \x7b # note", "return 1", "\x7d"]) := ⟨_, rfl, rfl⟩

-- a name on a line of its own calls what stands on the next one
example : NeedsNewline .initial (Tokens.ofText "if a \x7b\nb\n(c)\n\x7d").list := by decide

end Repl

end Shiba

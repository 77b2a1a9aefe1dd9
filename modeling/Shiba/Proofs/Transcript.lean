import Shiba.Proofs.LineJoining
import Shiba.Proofs.Lockstep.Scoped
import Shiba.Proofs.Passes

/-!
# Every line is accounted for

What a session should do is told here buffer by buffer, without the text that a session keeps: lines
wait as long as they are not complete (`Waiting`), and then one input decides what becomes of them all
(`Closes`).  A `Transcript` puts the buffers of a whole session together.  For given inputs there is one
at most (`Transcript.unique`), so it says what is answered to every input and how the session ends.

* `Repl.run_transcript`: every session has a transcript, whatever is entered, and at every prompt it
  keeps either nothing or a text that is not complete.  A session crashes where a buffer does, and nowhere
  else.
* `Repl.run_cyclic`: showing a list that holds itself crashes a session, with any limits.
-/

namespace Shiba

/-- The text of a line that is entered. -/
def Input.line? : Input → Option String
  | .line text => some text
  | .interrupt | .endOfInput => none

namespace Repl

/-! ## Buffers and their fates -/

/-- Of the statements of a block, the one that is stopped may have bound names where its module binds them,
but no other scope than this is changed, and what it opened is closed again. -/
def LeavesScopes (cfg : Config) (m : ModuleId) (s : State) (block : Block) : Prop :=
  ∀ before code after t stop u, block = before ++ code :: after →
    Executes cfg m s before (.ok none) t → Enters cfg m code t (.error stop) u →
    ScopeWorld.Fits ⟨t.registry, some m⟩ u

/-- What becomes of a buffer. -/
inductive Fate where
  | accepted (block : Block)
  | reported (failure : Source.Failure)
  | interrupted
  | endOfInput
  | crashed (reason : Crash)

/-- Lines that were taken together. -/
structure Buffer where
  lines : List String
  fate : Fate

/-- However few of the lines there are, they are not complete. -/
def Waiting (lines : List String) : Prop :=
  ∀ before after, lines = before ++ after → before ≠ [] → Program.Incomplete (buffered before)

/-- What is asked with behind so many waiting lines. -/
def promptFor : Nat → String
  | 0 => "shiba>>> "
  | _ + 1 => "shiba... "

/-- Nothing is answered to lines that wait. -/
def waits (lines : List String) : List (String × Reply) :=
  (List.range lines.length).map fun n => (promptFor n, quiet)

/-- Behind waiting lines, an input decides what becomes of them, what is answered, and what the session
goes on with or how it ends. -/
inductive Closes (cfg : Config) (m : ModuleId) (s : State) (lines : List String) :
    Input → Buffer → Reply → Except Finish State → Prop where
  | accepted {text : String} {block : Block} {result : Except Stop (Option Int64)} {t : State} :
    Program.parse (buffered (lines ++ [text])) = .ok block → Executes cfg m s block result t →
    (∀ reason, result ≠ .error (.crash reason)) → LeavesScopes cfg m s block →
    Closes cfg m s lines (.line text) ⟨lines ++ [text], .accepted block⟩
      ⟨outputText t.output, report result⟩ (goOn t result)
  /-- A statement has a value that cannot be shown, or it imports a text with a literal that is too long to be
  read; what stands behind it is never run. -/
  | broken {text : String} {block : Block} {reason : Crash} {t : State} :
    Program.parse (buffered (lines ++ [text])) = .ok block →
    Executes cfg m s block (.error (.crash reason)) t →
    Closes cfg m s lines (.line text) ⟨lines ++ [text], .crashed reason⟩
      ⟨outputText t.output, ""⟩ (.error (.crash reason))
  /-- The text holds a literal that is too long to be read. -/
  | unread {text : String} {failure : Source.Failure} {reason : Crash} :
    Program.parse (buffered (lines ++ [text])) = .error failure → failure.fault.crash? = some reason →
    Closes cfg m s lines (.line text) ⟨lines ++ [text], .crashed reason⟩ quiet (.error (.crash reason))
  | reported {text : String} {failure : Source.Failure} :
    Program.parse (buffered (lines ++ [text])) = .error failure → failure.fault.crash? = none →
    failure.fault.incomplete = false →
    Closes cfg m s lines (.line text) ⟨lines ++ [text], .reported failure⟩
      ⟨"", (Error.ofFailure moduleName failure).text ++ "\n"⟩ (.ok s)
  | interrupted : lines ≠ [] →
    Closes cfg m s lines .interrupt ⟨lines, .interrupted⟩ ⟨"\n", ""⟩ (.ok s)
  /-- An interrupt with nothing to give up ends the session. -/
  | interruptedFresh : lines = [] →
    Closes cfg m s lines .interrupt ⟨lines, .interrupted⟩ ⟨"\n", ""⟩ (.error (.exit 0))
  | endOfInput :
    Closes cfg m s lines .endOfInput ⟨lines, .endOfInput⟩ ⟨"\n", ""⟩ (.error (.exit 0))

/-- What a session makes of its inputs from a state on: buffers that follow each other, a prompt with a
reply for every input up to the one it ends with, and how it ends. -/
inductive Transcript (cfg : Config) (m : ModuleId) :
    State → List Input → List Buffer → List (String × Reply) → Finish → Prop where
  | ends {s : State} {lines : List String} {input : Input} {inputs : List Input} {buffer : Buffer}
    {reply : Reply} {finish : Finish} :
    Waiting lines → Closes cfg m s lines input buffer reply (.error finish) →
    Transcript cfg m s (lines.map .line ++ input :: inputs) [buffer]
      (waits lines ++ [(promptFor lines.length, reply)]) finish
  | goes {s t : State} {lines : List String} {input : Input} {inputs : List Input} {buffer : Buffer}
    {buffers : List Buffer} {reply : Reply} {replies : List (String × Reply)} {finish : Finish} :
    Waiting lines → Closes cfg m s lines input buffer reply (.ok t) →
    Transcript cfg m t inputs buffers replies finish →
    Transcript cfg m s (lines.map .line ++ input :: inputs) (buffer :: buffers)
      (waits lines ++ (promptFor lines.length, reply) :: replies) finish

section

variable {cfg : Config} {m : ModuleId} {s t t' : State} {block : Block} {lines lines' : List String}
  {input input' : Input} {inputs inputs' : List Input} {buffer buffer' : Buffer}
  {buffers buffers' : List Buffer} {reply reply' : Reply} {replies replies' : List (String × Reply)}
  {finish finish' : Finish} {result : Except Stop (Option Int64)} {next next' : Except Finish State}

/-! ## There is one transcript at most -/

theorem Closes.unique (first : Closes cfg m s lines input buffer reply next)
    (second : Closes cfg m s lines input buffer' reply' next') :
    buffer = buffer' ∧ reply = reply' ∧ next = next' := by
  cases first with
  | accepted parsed executes sound =>
    cases second with
    | accepted parsed' executes' =>
      cases parsed.symm.trans parsed'
      obtain ⟨rfl, rfl⟩ := executes.unique executes'
      exact ⟨rfl, rfl, rfl⟩
    | broken parsed' executes' =>
      cases parsed.symm.trans parsed'
      exact absurd (executes.unique executes').1 (sound _)
    | unread parsed' | reported parsed' => cases parsed.symm.trans parsed'
  | broken parsed executes =>
    cases second with
    | accepted parsed' executes' sound' =>
      cases parsed.symm.trans parsed'
      exact absurd (executes'.unique executes).1 (sound' _)
    | broken parsed' executes' =>
      cases parsed.symm.trans parsed'
      obtain ⟨⟨⟩, rfl⟩ := executes.unique executes'
      exact ⟨rfl, rfl, rfl⟩
    | unread parsed' | reported parsed' => cases parsed.symm.trans parsed'
  | unread parsed isCrash =>
    cases second with
    | accepted parsed' | broken parsed' => cases parsed.symm.trans parsed'
    | unread parsed' isCrash' =>
      cases parsed.symm.trans parsed'
      cases isCrash.symm.trans isCrash'
      exact ⟨rfl, rfl, rfl⟩
    | reported parsed' noCrash =>
      cases parsed.symm.trans parsed'
      cases isCrash.symm.trans noCrash
  | reported parsed noCrash =>
    cases second with
    | accepted parsed' | broken parsed' => cases parsed.symm.trans parsed'
    | unread parsed' isCrash =>
      cases parsed.symm.trans parsed'
      cases isCrash.symm.trans noCrash
    | reported parsed' =>
      cases parsed.symm.trans parsed'
      exact ⟨rfl, rfl, rfl⟩
  | interrupted some =>
    cases second with
    | interrupted => exact ⟨rfl, rfl, rfl⟩
    | interruptedFresh none => exact absurd none some
  | interruptedFresh none =>
    cases second with
    | interrupted some => exact absurd none some
    | interruptedFresh => exact ⟨rfl, rfl, rfl⟩
  | endOfInput =>
    cases second
    exact ⟨rfl, rfl, rfl⟩

/-- A line that decides what becomes of a buffer does not wait in it. -/
theorem Closes.not_incomplete {text : String}
    (closes : Closes cfg m s lines (.line text) buffer reply next) :
    ¬ Program.Incomplete (buffered (lines ++ [text])) := by
  rintro ⟨failure, parsed, incomplete⟩
  cases closes with
  | accepted parsed' | broken parsed' => cases parsed.symm.trans parsed'
  | unread parsed' isCrash =>
    cases parsed.symm.trans parsed'
    rw [Source.Fault.not_incomplete_of_crash? isCrash] at incomplete
    cases incomplete
  | reported parsed' _ known =>
    cases parsed.symm.trans parsed'
    rw [known] at incomplete
    cases incomplete

/-- Where a buffer ends, a longer one does not wait. -/
theorem Closes.eq_nil {more : List Input} (waiting : Waiting lines')
    (closes : Closes cfg m s lines input buffer reply next)
    (longer : lines'.map .line = lines.map .line ++ more)
    (rest : input :: inputs = more ++ input' :: inputs') : more = [] := by
  cases more with
  | nil => rfl
  | cons first more =>
    obtain ⟨rfl, -⟩ := List.cons.inj rest
    obtain ⟨before, after, rfl, same, others⟩ := List.map_eq_append_iff.1 longer
    obtain ⟨text, after, rfl, rfl, -⟩ := List.map_eq_cons_iff.1 others
    have same : before = lines := List.map_injective_iff.2 (fun _ _ => Input.line.inj) same
    subst same
    refine absurd (waiting (before ++ [text]) after ?_ ?_) closes.not_incomplete <;> simp

theorem Closes.split (waiting : Waiting lines) (waiting' : Waiting lines')
    (closes : Closes cfg m s lines input buffer reply next)
    (closes' : Closes cfg m s lines' input' buffer' reply' next')
    (same : lines.map .line ++ input :: inputs = lines'.map .line ++ input' :: inputs') :
    lines = lines' ∧ input = input' ∧ inputs = inputs' := by
  have whole : lines.map Input.line = lines'.map Input.line ∧ input :: inputs = input' :: inputs' := by
    rcases List.append_eq_append_iff.1 same with ⟨more, longer, rest⟩ | ⟨more, longer, rest⟩
    · cases closes.eq_nil waiting' longer rest
      exact ⟨by simpa using longer.symm, rest⟩
    · cases closes'.eq_nil waiting longer rest
      exact ⟨by simpa using longer, rest.symm⟩
  obtain ⟨sameLines, rest⟩ := whole
  exact ⟨List.map_injective_iff.2 (fun _ _ => Input.line.inj) sameLines, List.cons.inj rest⟩

/-- The inputs decide where the buffers end, what is answered, and how the session ends. -/
theorem Transcript.unique (first : Transcript cfg m s inputs buffers replies finish)
    (second : Transcript cfg m s inputs buffers' replies' finish') :
    buffers = buffers' ∧ replies = replies' ∧ finish = finish' := by
  generalize given : inputs = again at second
  induction first generalizing buffers' replies' again with
  | ends waiting closes =>
    cases second with
    | ends waiting' closes' =>
      obtain ⟨rfl, rfl, rfl⟩ := closes.split waiting waiting' closes' given
      obtain ⟨rfl, rfl, ⟨⟩⟩ := closes.unique closes'
      exact ⟨rfl, rfl, rfl⟩
    | goes waiting' closes' =>
      obtain ⟨rfl, rfl, rfl⟩ := closes.split waiting waiting' closes' given
      obtain ⟨-, -, ⟨⟩⟩ := closes.unique closes'
  | goes waiting closes _ ih =>
    cases second with
    | ends waiting' closes' =>
      obtain ⟨rfl, rfl, rfl⟩ := closes.split waiting waiting' closes' given
      obtain ⟨-, -, ⟨⟩⟩ := closes.unique closes'
    | goes waiting' closes' rest' =>
      obtain ⟨rfl, rfl, rfl⟩ := closes.split waiting waiting' closes' given
      obtain ⟨rfl, rfl, ⟨⟩⟩ := closes.unique closes'
      obtain ⟨rfl, rfl, rfl⟩ := ih _ rfl rest'
      exact ⟨rfl, rfl, rfl⟩

theorem Closes.lines_eq (closes : Closes cfg m s lines input buffer reply next) :
    buffer.lines = lines ++ input.line?.toList := by
  cases closes <;> simp [Input.line?]

/-- The lines among the inputs that have been taken. -/
theorem lines_taken (lines : List String) (input : Input) (inputs : List Input) (n : Nat) :
    ((lines.map Input.line ++ input :: inputs).take ((waits lines).length + (n + 1))).filterMap
      Input.line? = lines ++ input.line?.toList ++ (inputs.take n).filterMap Input.line? := by
  have length : (waits lines).length = (lines.map Input.line).length := by simp [waits]
  have all : (lines.map Input.line).filterMap Input.line? = lines := by
    rw [List.filterMap_map]
    exact List.filterMap_some
  rw [length, List.take_length_add_append, List.filterMap_append, all, List.take_succ_cons,
    List.filterMap_cons, List.append_assoc]
  cases input.line? <;> rfl

/-- The lines of the buffers are those that were entered, in order. -/
theorem Transcript.lines_eq (transcript : Transcript cfg m s inputs buffers replies finish) :
    buffers.flatMap Buffer.lines = (inputs.take replies.length).filterMap Input.line? := by
  induction transcript with
  | ends _ closes =>
    rw [List.length_append, List.length_singleton, lines_taken, List.flatMap_singleton, closes.lines_eq]
    simp
  | goes _ closes _ ih =>
    rw [List.length_append, List.length_cons, lines_taken, List.flatMap_cons, closes.lines_eq, ih]

/-- A buffer crashes when the session ends with that crash. -/
theorem Closes.crashed_iff (closes : Closes cfg m s lines input buffer reply next) (reason : Crash) :
    buffer.fate = .crashed reason ↔ next = .error (.crash reason) := by
  cases closes with
  | @accepted _ _ result _ _ _ sound =>
    refine ⟨nofun, fun ends => ?_⟩
    rcases result with stop | - | number
    · cases stop with
      | crash other => exact absurd rfl (sound other)
      | error | exit | tooDeep | outOfFuel => cases ends
    · cases ends
    · cases ends
  | broken | unread =>
    constructor <;> rintro ⟨⟩ <;> rfl
  | reported | interrupted | interruptedFresh | endOfInput => exact ⟨nofun, nofun⟩

/-- A session crashes where a buffer does, and nowhere else. -/
theorem Transcript.crash_iff (transcript : Transcript cfg m s inputs buffers replies finish)
    (reason : Crash) : finish = .crash reason ↔ ∃ buffer ∈ buffers, buffer.fate = .crashed reason := by
  induction transcript with
  | ends _ closes =>
    simp only [List.mem_singleton, exists_eq_left, closes.crashed_iff, Except.error.injEq]
  | goes _ closes _ ih =>
    simp only [List.mem_cons, exists_eq_or_imp, closes.crashed_iff, ih, reduceCtorEq, false_or]

/-! ## Scopes behind a statement -/

/-- A session can go on in a state. -/
structure Sane (m : ModuleId) (s : State) : Prop where
  wf : s.WellFormed
  registered : s.Registered m

/-- Statements of a module bind names there only, and close what they open. -/
theorem lasting_fits (base : State) (cfg : Config) (m : ModuleId) :
    Lasting cfg m fun t => Sane m t ∧ ScopeWorld.Fits ⟨base.registry, some m⟩ t where
  output lines := by
    rintro ⟨sane, fits⟩
    refine ⟨⟨sane.wf.write lines, sane.registered⟩, ?_⟩
    exact ⟨fits.size, fits.target, fits.same, fits.grown, fits.closed⟩
  stmtEnd {s} fuel calls stmt := by
    rintro ⟨sane, fits⟩
    have here := sane.wf.hasModule_of_registered sane.registered
    have begun : Discipline.scoped.Holds ⟨base.registry, some m⟩ 0 s s :=
      ⟨sane.wf, s.holding_zero, rfl, fits⟩
    have opened : Discipline.scoped.OpenFor ⟨base.registry, some m⟩ s m :=
      ⟨here, m, sane.registered, rfl⟩
    obtain ⟨result, t, t', run, -, later, after⟩ :=
      Discipline.agree_evalStmt ⟨m, calls⟩ begun cfg fuel (opened.admits stmt)
    have last : Discipline.scoped.Holds ⟨base.registry, some m⟩ 0 t t' := by
      cases result with
      | ok flow => exact after.1
      | error stop => exact after.1
    rw [run]
    exact ⟨⟨last.wf, sane.registered.mono later here⟩, last.rel.2⟩

theorem Sane.passes {past : List (Stmt × State)} (sane : Sane m s) (passes : Passes cfg m s past t) :
    Sane m t ∧ ScopeWorld.Fits ⟨s.registry, some m⟩ t := by
  apply passes.lasts (lasting_fits s cfg m) ⟨sane, ScopeWorld.fits_self _⟩
  intro m' given
  cases given
  exact sane.wf.hasModule_of_registered sane.registered

theorem Sane.executes (sane : Sane m s) (executes : Executes cfg m s block result t) : Sane m t := by
  obtain ⟨past, passes, -⟩ := executes.passes
  exact (sane.passes passes).1

theorem Sane.leavesScopes (sane : Sane m s) (cfg : Config) (block : Block) : LeavesScopes cfg m s block := by
  intro before code after t stop u _ executes enters
  exact ((sane.executes executes).passes enters.passes).2

/-! ## Sessions have transcripts -/

/-- At a prompt, a session keeps the lines that wait. -/
structure Collects (lines : List String) (r : Repl) : Prop where
  sane : Sane r.module r.state
  buffer : r.buffer = buffered lines
  waiting : Waiting lines

theorem buffered_concat (lines : List String) (text : String) :
    buffered (lines ++ [text]) = buffered lines ++ text ++ " " := by
  simp [buffered, String.append_assoc]

theorem buffered_ne {lines : List String} (some : lines ≠ []) : buffered lines ≠ "" := by
  obtain ⟨before, text, rfl⟩ := (List.eq_nil_or_concat lines).resolve_left some
  simp [buffered_concat]

theorem Waiting.concat {text : String} (waiting : Waiting lines)
    (incomplete : Program.Incomplete (buffered (lines ++ [text]))) : Waiting (lines ++ [text]) := by
  intro before after split some
  rcases List.eq_nil_or_concat after with rfl | ⟨after, last, rfl⟩
  · rw [List.append_nil] at split
    exact split ▸ incomplete
  · rw [List.concat_eq_append, ← List.append_assoc] at split
    exact waiting before after (List.append_inj_left' split rfl) some

namespace Collects

variable {r r' : Repl}

theorem fresh {s : State} (sane : Sane m s) : Collects [] ⟨s, m, ""⟩ :=
  ⟨sane, rfl, fun _ _ split some => absurd (List.append_eq_nil_iff.1 split.symm).1 some⟩

theorem prompt_eq (collects : Collects lines r) : r.prompt = promptFor lines.length := by
  cases lines with
  | nil => exact prompt_of_fresh collects.buffer
  | cons first rest =>
    apply prompt_of_buffer
    rw [collects.buffer]
    exact buffered_ne nofun

/-- One more input waits with the lines before, or decides what becomes of them. -/
theorem step (collects : Collects lines r) (cfg : Config) (input : Input) :
    (∃ text, input = .line text ∧
      Collects (lines ++ [text]) { r with buffer := buffered (lines ++ [text]) } ∧
      r.step cfg input = (quiet, .ok { r with buffer := buffered (lines ++ [text]) })) ∨
    ∃ buffer reply next, Closes cfg r.module r.state lines input buffer reply next ∧
      r.step cfg input = (reply, next.map fun u => ⟨u, r.module, ""⟩) ∧
      ∀ u, next = .ok u → Sane r.module u := by
  obtain ⟨sane, buffer, waiting⟩ := collects
  cases input with
  | endOfInput => exact .inr ⟨_, _, _, .endOfInput, rfl, nofun⟩
  | interrupt =>
    rw [step_interrupt, buffer]
    by_cases none : lines = []
    · subst none
      exact .inr ⟨_, _, _, .interruptedFresh rfl, rfl, nofun⟩
    · have more : (buffered lines).isEmpty = false := by simpa using buffered_ne none
      refine .inr ⟨_, _, _, .interrupted none, by rw [more]; rfl, ?_⟩
      rintro u ⟨⟩
      exact sane
  | line text =>
    rw [step_line, buffer, ← buffered_concat]
    cases parsed : Program.parse (buffered (lines ++ [text])) with
    | ok block =>
      obtain ⟨result, t, executes⟩ := exists_executes cfg r.module r.state block
      by_cases crashes : ∃ reason, result = .error (.crash reason)
      · obtain ⟨reason, rfl⟩ := crashes
        exact .inr ⟨_, _, _, .broken parsed executes, runBlock_of_executes executes, nofun⟩
      · refine .inr ⟨_, _, _, .accepted parsed executes (fun reason same => crashes ⟨reason, same⟩)
          (sane.leavesScopes cfg block), runBlock_of_executes executes, fun u goes => ?_⟩
        have saneThen := sane.executes executes
        rw [state_of_goOn goes]
        exact ⟨saneThen.wf.write _, saneThen.registered⟩
    | error failure =>
      rcases Stop.ofFailure_eq moduleName failure with ⟨reason, isCrash, crashes⟩ | ⟨noCrash, fails⟩
      · exact .inr ⟨_, _, _, .unread parsed isCrash, by simp only [refuse, crashes]; rfl, nofun⟩
      · cases known : failure.fault.incomplete with
        | true =>
          have longer := waiting.concat ⟨failure, parsed, known⟩
          exact .inl ⟨text, rfl, ⟨sane, rfl, longer⟩, refuse_of_incomplete known _ _⟩
        | false =>
          refine .inr ⟨_, _, _, .reported parsed noCrash known, ?_, ?_⟩
          · simp only [refuse, fails, known, Bool.false_eq_true, if_false]
            rfl
          · rintro u ⟨⟩
            exact sane

/-- Whatever is entered, a session has a transcript, also behind lines that wait already. -/
theorem transcript (collects : Collects lines r) (cfg : Config) (inputs : List Input) :
    ∃ buffers, Transcript cfg r.module r.state (lines.map .line ++ (inputs ++ [.endOfInput])) buffers
      (waits lines ++ (r.run cfg inputs).1) (r.run cfg inputs).2 := by
  induction inputs generalizing lines r with
  | nil =>
    rw [run, collects.prompt_eq]
    exact ⟨_, .ends collects.waiting .endOfInput⟩
  | cons input inputs ih =>
    rw [run, collects.prompt_eq]
    obtain ⟨text, rfl, longer, steps⟩ | ⟨buffer, reply, next, closes, steps, saneThen⟩ :=
      collects.step cfg input
    · obtain ⟨buffers, later⟩ := ih longer
      rw [steps]
      refine ⟨buffers, ?_⟩
      simpa [waits, List.range_succ] using later
    · rw [steps]
      cases next with
      | error finish => exact ⟨_, .ends collects.waiting closes⟩
      | ok u =>
        obtain ⟨buffers, later⟩ := ih (fresh (saneThen u rfl))
        exact ⟨buffer :: buffers, .goes collects.waiting closes later⟩

end Collects

theorem collects_start (directory : String) : Collects [] (start directory) :=
  Collects.fresh ⟨State.wellFormed_initial.register (M := .ofSource moduleName directory "") rfl,
    State.registered_load _ _⟩

theorem exists_transcript (cfg : Config) (directory : String) (inputs : List Input) :
    ∃ buffers, Transcript cfg (start directory).module (start directory).state
      (inputs ++ [.endOfInput]) buffers
      (run cfg (start directory) inputs).1 (run cfg (start directory) inputs).2 :=
  (collects_start directory).transcript cfg inputs

theorem Session.collects {directory : String} {r : Repl} (session : Session cfg directory r) :
    ∃ lines, Collects lines r := by
  induction session with
  | start => exact ⟨[], collects_start directory⟩
  | @step r r' input reply _ steps ih =>
    obtain ⟨lines, collects⟩ := ih
    rcases collects.step cfg input with ⟨_, _, longer, steps'⟩ | ⟨_, _, next, _, steps', saneThen⟩
    · cases steps.symm.trans steps'
      exact ⟨_, longer⟩
    · cases next with
      | error finish => cases steps.symm.trans steps'
      | ok u =>
        cases steps.symm.trans steps'
        exact ⟨[], .fresh (saneThen u rfl)⟩

end

/-! ## A list that holds itself -/

/-- A session in which `a` is a list of one box, and some boxes have been made.  The first of them is the
literal, the second the one in the list; the others are the list and copies of it. -/
def withList (boxes : List Value) : State where
  heap := { Heap.empty with
    boxes := (State.standardBuiltins.map Value.builtin ++ boxes).toArray
    lists := #[#[⟨9⟩]] }
  registry := (start "/").state.registry.modifyScope ⟨0⟩ (·.setObj "a" ⟨11⟩)
  builtins := State.initial.builtins
  output := #[]

def listMade : State := withList [.int 0, .int 0, .list ⟨0⟩, .list ⟨0⟩]

def cycleClosed : State := withList [.int 0, .list ⟨0⟩, .list ⟨0⟩, .list ⟨0⟩, .list ⟨0⟩, .int 0]

/-- A list that was put into itself cannot be shown, however deep data may be nested, and the lines behind are
never taken. -/
theorem run_cyclic {cfg : Config} (enough : 3 ≤ cfg.fuel) (silent : cfg.debugLevel < 2) (inputs : List Input) :
    run cfg (start "/") (.line "a = [0]" :: .line "a[0] = a" :: .line "a" :: inputs) =
      ([("shiba>>> ", quiet), ("shiba>>> ", quiet), ("shiba>>> ", quiet)], .crash .shownTooDeep) := by
  obtain ⟨fuel, isFuel⟩ := Nat.exists_eq_add_of_le' enough
  have unannounced (code : Stmt) (s : State) : Eval.announced cfg ⟨0⟩ code s = s := if_neg (by omega)
  have runs {code : Stmt} {s t : State} {flow : Flow}
      (run : evalStmt cfg (fuel + 3) ⟨⟨0⟩, cfg.callLimit⟩ code s = (.ok flow, t)) (plain : flow.jump? = none) :
      Run.Ends cfg ⟨0⟩ code s (.ok (Run.outcome flow)) t :=
    .finished (by rwa [unannounced, isFuel]) plain
  have makes : Executes cfg ⟨0⟩ (start "/").state [.assign ⟨1, 3, 2⟩ .plain [.ident ⟨1, 1, 0⟩ "a"]
      [.list ⟨1, 5, 4⟩ [.literal ⟨1, 6, 5⟩ (.int 0)]]] (.ok none) listMade :=
    .next (.plain (runs rfl rfl) nofun) nofun (.done _)
  have closes : Executes cfg ⟨0⟩ listMade [.assign ⟨1, 6, 5⟩ .plain
      [.index ⟨1, 2, 1⟩ (.ident ⟨1, 1, 0⟩ "a") (.literal ⟨1, 3, 2⟩ (.int 0))] [.ident ⟨1, 8, 7⟩ "a"]]
      (.ok none) cycleClosed :=
    .next (.plain (runs rfl rfl) nofun) nofun (.done _)
  have read : evalStmt cfg (fuel + 3) ⟨⟨0⟩, cfg.callLimit⟩ (.expr (.ident ⟨1, 1, 0⟩ "a")) cycleClosed =
      (.ok (.value ⟨11⟩), cycleClosed) := rfl
  have some : cycleClosed.heap.value ⟨11⟩ ≠ .nil := (nofun : Value.list ⟨0⟩ ≠ .nil)
  have endless : cycleClosed.heap.display cfg.dataLimit (.list ⟨0⟩) = none :=
    Heap.canonical_cyclic (b := ⟨9⟩) (List.mem_singleton.2 rfl) rfl cfg.dataLimit
  have shows : Executes cfg ⟨0⟩ cycleClosed [.expr (.ident ⟨1, 1, 0⟩ "a")]
      (.error (.crash .shownTooDeep)) cycleClosed :=
    .stopped (.value (runs read rfl) (.tooDeep some endless))
  have first := run_line_of_ok (r := start "/") (l := "a = [0]")
    (.line "a[0] = a" :: .line "a" :: inputs) rfl makes
  have second := run_line_of_ok (r := ⟨listMade, ⟨0⟩, ""⟩) (l := "a[0] = a") (.line "a" :: inputs) rfl closes
  have third := run_line_of_ok (r := ⟨cycleClosed, ⟨0⟩, ""⟩) (l := "a") inputs rfl shows
  rw [first]
  change (_ :: (run cfg ⟨listMade, ⟨0⟩, ""⟩ _).1, (run cfg ⟨listMade, ⟨0⟩, ""⟩ _).2) = _
  rw [second]
  change (_ :: _ :: (run cfg ⟨cycleClosed, ⟨0⟩, ""⟩ _).1, (run cfg ⟨cycleClosed, ⟨0⟩, ""⟩ _).2) = _
  rw [third]
  rfl

/-- Whatever is entered, the lines that a session takes up to its end are those of its buffers, each of
which is run, reported or given up once, as its transcript says, unless it crashes; and a session crashes
where a buffer does and nowhere else.  At every prompt the session keeps nothing and asks with the primary
prompt, or a text that is not complete and asks with the other. -/
theorem run_transcript (cfg : Config) (directory : String) (inputs : List Input) :
    (∃! buffers, Transcript cfg (start directory).module (start directory).state
      (inputs ++ [.endOfInput]) buffers
      (run cfg (start directory) inputs).1 (run cfg (start directory) inputs).2 ∧
      buffers.flatMap Buffer.lines =
        (inputs.take (run cfg (start directory) inputs).1.length).filterMap Input.line? ∧
      ∀ reason, (run cfg (start directory) inputs).2 = .crash reason ↔
        ∃ buffer ∈ buffers, buffer.fate = .crashed reason) ∧
    ∀ r, Session cfg directory r → r.buffer = "" ∧ r.prompt = "shiba>>> " ∨
      Program.Incomplete r.buffer ∧ r.prompt = "shiba... " := by
  constructor
  · obtain ⟨buffers, transcript⟩ := exists_transcript cfg directory inputs
    refine ⟨buffers, ⟨transcript, ?_, transcript.crash_iff⟩,
      fun buffers' also => (also.1.unique transcript).1⟩
    -- the end of the input is no line
    have noLine (n : Nat) : ([Input.endOfInput].take n).filterMap Input.line? = [] := by
      cases n <;> simp [Input.line?]
    rw [transcript.lines_eq, List.take_append, List.filterMap_append, noLine, List.append_nil]
  · intro r session
    obtain ⟨lines, collects⟩ := session.collects
    rw [collects.prompt_eq]
    cases lines with
    | nil => exact .inl ⟨collects.buffer, rfl⟩
    | cons first rest =>
      refine .inr ⟨?_, rfl⟩
      rw [collects.buffer]
      exact collects.waiting _ [] (List.append_nil _).symm nofun

/-- A session with a statement that is run, one that fails, a definition that is given up, and an exit; and one
in which a list that holds itself is to be shown, so that its last line is never taken. -/
theorem run_transcript_sessions :
    (∃! buffers, Transcript .standard (start "/").module (start "/").state
      [.line "x = 1", .line "y", .line "def f() \x7b", .interrupt, .line "exit(x)", .endOfInput] buffers
      [("shiba>>> ", quiet),
        ("shiba>>> ", ⟨"", "<repl>:1:1: UndefinedIdent: identifier y is undefined\n"⟩),
        ("shiba>>> ", quiet), ("shiba... ", ⟨"\n", ""⟩), ("shiba>>> ", quiet)] (.exit 1) ∧
      buffers.flatMap Buffer.lines = ["x = 1", "y", "def f() \x7b", "exit(x)"] ∧
      ∀ reason, Finish.exit 1 = .crash reason ↔ ∃ buffer ∈ buffers, buffer.fate = .crashed reason) ∧
    ∃! buffers, Transcript .standard (start "/").module (start "/").state
      [.line "a = [0]", .line "a[0] = a", .line "a", .line "print(1)", .endOfInput] buffers
      [("shiba>>> ", quiet), ("shiba>>> ", quiet), ("shiba>>> ", quiet)] (.crash .shownTooDeep) ∧
      buffers.flatMap Buffer.lines = ["a = [0]", "a[0] = a", "a"] ∧
      ∀ reason, Finish.crash .shownTooDeep = .crash reason ↔
        ∃ buffer ∈ buffers, buffer.fate = .crashed reason := by
  have first : run .standard (start "/")
      [.line "x = 1", .line "y", .line "def f() \x7b", .interrupt, .line "exit(x)"] =
        ([("shiba>>> ", quiet),
          ("shiba>>> ", ⟨"", "<repl>:1:1: UndefinedIdent: identifier y is undefined\n"⟩),
          ("shiba>>> ", quiet), ("shiba... ", ⟨"\n", ""⟩), ("shiba>>> ", quiet)], .exit 1) := by
    decide +kernel
  have second : run .standard (start "/")
      [.line "a = [0]", .line "a[0] = a", .line "a", .line "print(1)"] =
        ([("shiba>>> ", quiet), ("shiba>>> ", quiet), ("shiba>>> ", quiet)], .crash .shownTooDeep) :=
    run_cyclic (by decide) (by decide) [.line "print(1)"]
  obtain ⟨whole, -⟩ := run_transcript .standard "/"
    [.line "x = 1", .line "y", .line "def f() \x7b", .interrupt, .line "exit(x)"]
  obtain ⟨crashed, -⟩ := run_transcript .standard "/"
    [.line "a = [0]", .line "a[0] = a", .line "a", .line "print(1)"]
  rw [first] at whole
  rw [second] at crashed
  exact ⟨whole, crashed⟩

end Repl

end Shiba

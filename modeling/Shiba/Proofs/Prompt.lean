import Shiba.Proofs.TopLevel
import Shiba.Repl

/-!
# Statements at the prompt

The statements of a text that was entered are run one after another, each of them once, and the value of
each is shown before the next is run.  A value that is nested too deep to be shown is no error of the
statement, which has ended by then: the session crashes.

* `Repl.executes_iff`: `Repl.evaluate` enters the statements one by one, up to the first that exits or is
  stopped, and this is how it ends.
* `Repl.runBlock_of_executes`: what a session answers to them, and what it goes on with or how it ends.
-/

namespace Shiba.Repl

open Eval

/-! ## One statement -/

/-- What becomes of a value at the prompt. -/
inductive Shows (cfg : Config) (b : BoxId) (s : State) : Except Stop Unit → State → Prop
  | nothing : s.heap.value b = .nil → Shows cfg b s (.ok ()) s
  | written {text : String} : s.heap.value b ≠ .nil →
    s.heap.display cfg.dataLimit (s.heap.value b) = some text →
    Shows cfg b s (.ok ()) { s with output := s.output.push (.program text) }
  | tooDeep : s.heap.value b ≠ .nil → s.heap.display cfg.dataLimit (s.heap.value b) = none →
    Shows cfg b s (.error (.crash .shownTooDeep)) s

/-- A statement is entered: it is run, and its value is shown if it has one. -/
inductive Enters (cfg : Config) (m : ModuleId) (code : Stmt) (s : State) : Except Stop Outcome → State → Prop
  | plain {result : Except Stop Outcome} {t : State} :
    Run.Ends cfg m code s result t → (∀ b, result ≠ .ok (.value b)) → Enters cfg m code s result t
  | value {b : BoxId} {t u : State} {shown : Except Stop Unit} :
    Run.Ends cfg m code s (.ok (.value b)) t → Shows cfg b t shown u →
    Enters cfg m code s (shown.map fun _ => .value b) u

/-- Runs one statement, and shows its value. -/
def entered (cfg : Config) (m : ModuleId) (code : Stmt) : Eval Outcome := do
  let outcome ← Run.statement cfg m code
  if let .value b := outcome then
    echo cfg b
  return outcome

section

variable {cfg : Config} {m : ModuleId} {code : Stmt} {s t : State} {b : BoxId} {text : String}

theorem display_of_some (shown : s.heap.display cfg.dataLimit (s.heap.value b) = some text) :
    display cfg b s = (.ok text, s) := by
  rw [display, bind_ok (show read b s = (.ok (s.heap.value b), s) from rfl), HeapM.bounded, onHeap_get_bind,
    bind_ok (run_get s), shown, onHeap_pure]
  rfl

theorem display_of_none (tooDeep : s.heap.display cfg.dataLimit (s.heap.value b) = none) :
    display cfg b s = (.error .tooDeep, s) := by
  rw [display, bind_ok (show read b s = (.ok (s.heap.value b), s) from rfl), HeapM.bounded, onHeap_get_bind,
    bind_ok (run_get s), tooDeep, onHeap_throw]
  rfl

/-- A value that is not nil is written, if it can be. -/
theorem echo_of_ne (some : s.heap.value b ≠ .nil) :
    echo cfg b s = (observe (display cfg b) >>= fun
      | .ok text => print text
      | .error .tooDeep => throw (.crash .shownTooDeep)
      | .error stop => throw stop) s := by
  rw [echo, bind_ok (show read b s = (.ok (s.heap.value b), s) from rfl)]
  cases value : s.heap.value b with
  | nil => exact absurd value some
  | _ => rfl

theorem Shows.eq {shown : Except Stop Unit} (shows : Shows cfg b s shown t) :
    echo cfg b s = (shown, t) := by
  cases shows with
  | nothing isNil =>
    rw [echo, bind_ok (show read b s = (.ok (s.heap.value b), s) from rfl), isNil]
    rfl
  | written some text =>
    rw [echo_of_ne some, observe_bind_apply, display_of_some text]
    rfl
  | tooDeep some tooDeep =>
    rw [echo_of_ne some, observe_bind_apply, display_of_none tooDeep]
    rfl

theorem exists_shows (cfg : Config) (b : BoxId) (s : State) : ∃ shown t, Shows cfg b s shown t := by
  by_cases isNil : s.heap.value b = .nil
  · exact ⟨_, _, .nothing isNil⟩
  · cases text : s.heap.display cfg.dataLimit (s.heap.value b) with
    | none => exact ⟨_, _, .tooDeep isNil text⟩
    | some text => exact ⟨_, _, .written isNil text⟩

/-- Showing a value changes at most what is written. -/
theorem Shows.exists_lines {shown : Except Stop Unit} (shows : Shows cfg b s shown t) :
    ∃ lines, t = { s with output := lines } := by
  cases shows with
  | nothing | tooDeep => exact ⟨s.output, rfl⟩
  | written => exact ⟨_, rfl⟩

theorem Enters.eq {result : Except Stop Outcome} (enters : Enters cfg m code s result t) :
    entered cfg m code s = (result, t) := by
  rw [entered]
  cases enters with
  | plain ends noValue =>
    rcases result with stop | outcome
    · exact bind_error ends.eq
    · rw [bind_ok ends.eq]
      cases outcome with
      | value b => exact absurd rfl (noValue b)
      | done | exit => rfl
  | @value b u _ shown ends shows =>
    rw [bind_ok ends.eq]
    cases shown with
    | error stop => exact bind_error shows.eq
    | ok => exact bind_ok shows.eq

theorem exists_enters (cfg : Config) (m : ModuleId) (code : Stmt) (s : State) :
    ∃ result t, Enters cfg m code s result t := by
  obtain ⟨result, t, ends⟩ := Run.exists_ends cfg m code s
  by_cases isValue : ∃ b, result = .ok (.value b)
  · obtain ⟨b, rfl⟩ := isValue
    obtain ⟨shown, u, shows⟩ := exists_shows cfg b t
    exact ⟨_, _, .value ends shows⟩
  · exact ⟨_, _, .plain ends fun b same => isValue ⟨b, same⟩⟩

end

/-! ## Statements one after another -/

/-- Statements are entered once each and in order, up to the first that exits or is stopped. -/
inductive Executes (cfg : Config) (m : ModuleId) :
    State → Block → Except Stop (Option Int64) → State → Prop where
  | done (s : State) : Executes cfg m s [] (.ok none) s
  | next {s t u : State} {code : Stmt} {rest : Block} {outcome : Outcome}
    {result : Except Stop (Option Int64)} :
    Enters cfg m code s (.ok outcome) t → (∀ number, outcome ≠ .exit number) →
    Executes cfg m t rest result u → Executes cfg m s (code :: rest) result u
  | exited {s t : State} {code : Stmt} {rest : Block} {number : Int64} :
    Enters cfg m code s (.ok (.exit number)) t → Executes cfg m s (code :: rest) (.ok (some number)) t
  | stopped {s t : State} {code : Stmt} {rest : Block} {stop : Stop} :
    Enters cfg m code s (.error stop) t → Executes cfg m s (code :: rest) (.error stop) t

section

variable {cfg : Config} {m : ModuleId} {s t t' : State} {block : Block}
  {result result' : Except Stop (Option Int64)}

theorem evaluate_cons (cfg : Config) (m : ModuleId) (code : Stmt) (rest : Block) :
    evaluate cfg m (code :: rest) = (do
      match ← entered cfg m code with
      | .exit number => return some number
      | _ => evaluate cfg m rest) := by
  rw [evaluate, entered, bind_assoc]
  congr
  funext outcome
  cases outcome with
  | done | exit => rfl
  | value b => simp only [bind_assoc, pure_bind]

theorem Executes.eq (executes : Executes cfg m s block result t) :
    evaluate cfg m block s = (result, t) := by
  induction executes with
  | done s => rfl
  | @next _ _ _ _ _ outcome _ enters noExit _ ih =>
    rw [evaluate_cons, bind_ok enters.eq, ← ih]
    cases outcome with
    | exit number => exact absurd rfl (noExit number)
    | done | value => rfl
  | exited enters =>
    rw [evaluate_cons, bind_ok enters.eq]
    rfl
  | stopped enters =>
    rw [evaluate_cons]
    exact bind_error enters.eq

theorem exists_executes (cfg : Config) (m : ModuleId) (s : State) (block : Block) :
    ∃ result t, Executes cfg m s block result t := by
  induction block generalizing s with
  | nil => exact ⟨_, _, .done s⟩
  | cons code rest ih =>
    obtain ⟨entered | outcome, t, enters⟩ := exists_enters cfg m code s
    · exact ⟨_, _, .stopped enters⟩
    · cases outcome with
      | exit number => exact ⟨_, _, .exited enters⟩
      | done | value =>
        obtain ⟨result, u, later⟩ := ih t
        exact ⟨_, _, .next enters nofun later⟩

/-- The statements of a text are entered one by one. -/
theorem executes_iff : evaluate cfg m block s = (result, t) ↔ Executes cfg m s block result t := by
  refine ⟨fun run => ?_, Executes.eq⟩
  obtain ⟨result', t', executes⟩ := exists_executes cfg m s block
  cases run.symm.trans executes.eq
  exact executes

theorem Executes.unique (first : Executes cfg m s block result t)
    (second : Executes cfg m s block result' t') : result = result' ∧ t = t' :=
  Prod.mk.inj (first.eq.symm.trans second.eq)

end

/-! ## What a session makes of a text -/

/-- What is reported of a run. -/
def report : Except Stop (Option Int64) → String
  | .ok _ | .error (.crash _) => ""
  | .error stop => stopText stop ++ "\n"

/-- What a session goes on with behind a run, or how it ends. -/
def goOn (t : State) : Except Stop (Option Int64) → Except Finish State
  | .ok (some number) => .error (.exit number)
  | .error (.crash reason) => .error (.crash reason)
  | .ok none | .error _ => .ok { t with output := #[] }

theorem state_of_goOn {t u : State} {result : Except Stop (Option Int64)} (goes : goOn t result = .ok u) :
    u = { t with output := #[] } := by
  rcases result with stop | - | number
  · cases stop <;> cases goes <;> rfl
  · cases goes
    rfl
  · cases goes

/-- What is written when the statements of a complete text have been entered, and the session that goes on
or how it ends. -/
theorem runBlock_of_executes {cfg : Config} {r : Repl} {block : Block} {result : Except Stop (Option Int64)}
    {t : State} (executes : Executes cfg r.module r.state block result t) :
    r.runBlock cfg block =
      (⟨outputText t.output, report result⟩, (goOn t result).map fun u => ⟨u, r.module, ""⟩) := by
  have run : (evaluate cfg r.module block).run r.state = (result, t) := executes.eq
  rw [runBlock, run]
  rcases result with stop | - | number
  · cases stop <;> rfl
  · rfl
  · rfl

/-- Behind a complete text, a session goes on with the state in which the statements have left it. -/
theorem eq_of_runBlock {cfg : Config} {r r' : Repl} {block : Block} {reply : Reply}
    (goes : r.runBlock cfg block = (reply, .ok r')) : r'.module = r.module ∧
      r'.state = { (evaluate cfg r.module block r.state).2 with output := #[] } := by
  obtain ⟨result, t, executes⟩ := exists_executes cfg r.module r.state block
  rw [runBlock_of_executes executes] at goes
  rw [executes.eq]
  cases goesOn : goOn t result with
  | error finish =>
    rw [goesOn] at goes
    cases goes
  | ok u =>
    rw [goesOn, state_of_goOn goesOn] at goes
    cases goes
    exact ⟨rfl, rfl⟩

/-- The sessions that inputs lead to. -/
inductive Session (cfg : Config) (directory : String) : Repl → Prop where
  | start : Session cfg directory (.start directory)
  | step {r r' : Repl} {input : Input} {reply : Reply} : Session cfg directory r →
    r.step cfg input = (reply, .ok r') → Session cfg directory r'

end Shiba.Repl

import Shiba.Proofs.Blame.Runs
import Shiba.Proofs.Parts.Imports
import Shiba.Proofs.Prompt
import Shiba.Proofs.Reachable

/-!
# From one top-level statement to the next

A program, a session and a prompt do nothing with a state but evaluate top-level statements of their module,
one after another, and write and take away lines.  `Passes` tells the statements that were evaluated, each
with the state in which it was.

* `Run.program_passes`, `Run.Session.passes`, `Repl.Session.passes` and `Repl.Executes.passes`: all runs pass
  so, and a text starts its statements in order and once each.
* `Passes.loads_unique`: at most one import in the course of them all loads the module with a key.
-/

namespace Shiba

open Eval

/-- Top-level statements of a module are evaluated one after another, however they end, and lines are written
and taken away in front of them and behind them. -/
inductive Passes (cfg : Config) (m : ModuleId) (s : State) : List (Stmt × State) → State → Prop
  | here : Passes cfg m s [] s
  | statement {past : List (Stmt × State)} {t : State} (code : Stmt) : Passes cfg m s past t →
    Passes cfg m s (past ++ [(code, t)]) (evalStmt cfg cfg.fuel ⟨m, cfg.callLimit⟩ code t).2
  | written {past : List (Stmt × State)} {t : State} (lines : Array Line) : Passes cfg m s past t →
    Passes cfg m s past { t with output := lines }

/-- A top-level statement of the main module as a part of the run. -/
def Part.main (cfg : Config) (m : ModuleId) (code : Stmt) : Part := .stmt ⟨m, cfg.callLimit⟩ code

section

variable {cfg : Config} {m : ModuleId} {s t u : State} {past later : List (Stmt × State)} {key : String}
  {code : Stmt} {block : Block}

namespace Passes

theorem trans (before : Passes cfg m s past t) (behind : Passes cfg m t later u) :
    Passes cfg m s (past ++ later) u := by
  induction behind with
  | here => rwa [List.append_nil]
  | statement code _ ih =>
    rw [← List.append_assoc]
    exact ih.statement code
  | written lines _ ih => exact ih.written lines

theorem lasts {R : State → Prop} (passes : Passes cfg m s past t) (lasting : Lasting cfg m R) (holds : R s) :
    R t := by
  induction passes with
  | here => exact holds
  | statement code _ ih => exact lasting.stmtEnd _ _ code ih
  | written lines _ ih => exact lasting.output lines ih

/-- A key that is registered stays registered. -/
theorem registered (passes : Passes cfg m s past t) (there : s.registry.find? key ≠ none) :
    t.registry.find? key ≠ none := by
  induction passes with
  | here => exact there
  | @statement _ t code _ ih => exact evaluators_keep cfg cfg.fuel key (.main cfg m code) t ih
  | written lines _ ih => exact ih

/-- What is registered in front of the statements is registered when each of them begins. -/
theorem registered_before (passes : Passes cfg m s past t) {e : Stmt × State} (member : e ∈ past)
    (there : s.registry.find? key ≠ none) : e.2.registry.find? key ≠ none := by
  induction passes with
  | here => cases member
  | statement code before ih =>
    rcases List.mem_append.1 member with old | new
    · exact ih old
    · cases List.mem_singleton.1 new
      exact before.registered there
  | written lines _ ih => exact ih member

/-- A module is registered by one of the statements. -/
theorem exists_registers (passes : Passes cfg m s past t) (fresh : s.registry.find? key = none)
    (there : t.registry.find? key ≠ none) :
    ∃ e ∈ past, e.2.registry.find? key = none ∧
      ((Part.main cfg m e.1).after (evaluators cfg cfg.fuel) e.2).registry.find? key ≠ none := by
  induction passes with
  | here => exact absurd fresh there
  | @statement past t code _ ih =>
    by_cases already : t.registry.find? key = none
    · exact ⟨(code, t), List.mem_append_right _ List.mem_cons_self, already, there⟩
    · obtain ⟨e, member, registers⟩ := ih already
      exact ⟨e, List.mem_append_left _ member, registers⟩
  | written lines _ ih => exact ih there

/-- What one of the statements has registered is registered behind them all. -/
theorem registered_after (passes : Passes cfg m s past t) {e : Stmt × State} (member : e ∈ past)
    (there : ((Part.main cfg m e.1).after (evaluators cfg cfg.fuel) e.2).registry.find? key ≠ none) :
    t.registry.find? key ≠ none := by
  induction passes with
  | here => cases member
  | @statement past t code _ ih =>
    rcases List.mem_append.1 member with old | new
    · exact evaluators_keep cfg cfg.fuel key (.main cfg m code) t (ih old)
    · cases List.mem_singleton.1 new
      exact there
  | written lines _ ih => exact ih member

/-- One of the statements at most registers a key. -/
theorem registers_unique (passes : Passes cfg m s past t) {e e' : Stmt × State} (member : e ∈ past)
    (fresh : e.2.registry.find? key = none)
    (there : ((Part.main cfg m e.1).after (evaluators cfg cfg.fuel) e.2).registry.find? key ≠ none)
    (member' : e' ∈ past) (fresh' : e'.2.registry.find? key = none)
    (there' : ((Part.main cfg m e'.1).after (evaluators cfg cfg.fuel) e'.2).registry.find? key ≠ none) :
    e = e' := by
  induction passes with
  | here => cases member
  | statement code before ih =>
    rcases List.mem_append.1 member with old | new <;> rcases List.mem_append.1 member' with old' | new'
    · exact ih old old'
    · cases List.mem_singleton.1 new'
      exact absurd fresh' (before.registered_after old there)
    · cases List.mem_singleton.1 new
      exact absurd fresh (before.registered_after old' there')
    · cases List.mem_singleton.1 new
      cases List.mem_singleton.1 new'
      rfl
  | written lines _ ih => exact ih member member'

/-- At most one import in the course of the statements loads the module with a key. -/
theorem loads_unique (passes : Passes cfg m s past t) {e e' : Stmt × State} {ctx ctx' : Context}
    {name name' file file' content content' : String} {n n' : Nat} {p p' : Position} {v v' : State}
    (member : e ∈ past)
    (inside : Inside cfg cfg.fuel (.main cfg m e.1) e.2 (n + 1) (.stmt ctx (.importModule p name)) v)
    (loads : LoadsFile cfg ctx name v key file content) (member' : e' ∈ past)
    (inside' : Inside cfg cfg.fuel (.main cfg m e'.1) e'.2 (n' + 1) (.stmt ctx' (.importModule p' name')) v')
    (loads' : LoadsFile cfg ctx' name' v' key file' content') :
    e = e' ∧ n = n' ∧ ctx = ctx' ∧ p = p' ∧ name = name' ∧ v = v' := by
  obtain ⟨fresh, there⟩ := inside.registers loads
  obtain ⟨fresh', there'⟩ := inside'.registers loads'
  obtain rfl := passes.registers_unique member fresh there member' fresh' there'
  exact ⟨rfl, inside.unique loads inside' loads'⟩

end Passes

/-! ## Programs -/

/-- One statement is evaluated, in the state in which it has been announced. -/
theorem Run.Ends.passes {result : Except Stop Outcome} (ends : Run.Ends cfg m code s result t) :
    Passes cfg m s [(code, announced cfg m code s)] t := by
  obtain ⟨lines, same⟩ := exists_announced cfg m code s
  have ready : Passes cfg m s [] (announced cfg m code s) := by
    rw [same]
    exact .written lines .here
  have last := ready.statement code
  cases ends with
  | finished run | jumped run | exited run | tooDeep run | stopped run =>
    rw [run] at last
    exact last

theorem Run.statement_passes (cfg : Config) (m : ModuleId) (code : Stmt) (s : State) :
    Passes cfg m s [(code, announced cfg m code s)] (Run.statement cfg m code s).2 := by
  obtain ⟨result, t, ends⟩ := Run.exists_ends cfg m code s
  rw [ends.eq]
  exact ends.passes

theorem Run.statements_passes (cfg : Config) (m : ModuleId) (block : Block) (s : State) :
    ∃ past, Passes cfg m s past (Run.statements cfg m block s).2 ∧ past.map Prod.fst <+: block := by
  induction block generalizing s with
  | nil => exact ⟨[], .here, List.prefix_refl []⟩
  | cons code rest ih =>
    obtain ⟨result, t, ends⟩ := Run.exists_ends cfg m code s
    have only : [code] <+: code :: rest := (List.prefix_cons_inj code).2 List.nil_prefix
    rw [Run.statements]
    rcases result with stop | outcome
    · rw [bind_error ends.eq]
      exact ⟨_, ends.passes, only⟩
    · rw [bind_ok ends.eq]
      cases outcome with
      | exit number => exact ⟨_, ends.passes, only⟩
      | done | value =>
        obtain ⟨past, behind, inOrder⟩ := ih t
        exact ⟨_, ends.passes.trans behind, (List.prefix_cons_inj code).2 inOrder⟩

/-- A program evaluates the statements of its text in order and once each, up to some of them. -/
theorem Run.program_passes (cfg : Config) (M : Module) (s : State) :
    ∃ past, Passes cfg s.registry.next (s.load M) past (Run.program cfg M s).2 ∧
      past.map Prod.fst <+: (Program.ofText M.content).statements := by
  rw [Run.program, bind_ok (Discipline.Agree.run_addModule s M)]
  obtain ⟨lines, traced⟩ := trace_eq cfg 1 (return "run module " ++ M.key) (s := s.load M) rfl
  rw [bind_ok traced]
  obtain ⟨past, passes, inOrder⟩ := Run.statements_passes cfg s.registry.next
    (Program.ofText M.content).statements { s.load M with output := lines }
  refine ⟨past, ?_, inOrder⟩
  have ended := (Passes.written lines (.here (s := s.load M))).trans passes
  apply Lasting.bind (R := Passes cfg s.registry.next (s.load M) past) ended
  intro code u there
  cases code with
  | some code => exact there
  | none => exact Lasting.bind (Lasting.checkEnding there _) fun _ v checked => checked

theorem Run.Session.passes {M : Module} (session : Run.Session cfg M s) :
    ∃ past, Passes cfg Run.mainModule (State.initial.load M) past s := by
  induction session with
  | start => exact ⟨[], .here⟩
  | @step s code _ _ ih =>
    obtain ⟨past, before⟩ := ih
    exact ⟨_, before.trans (Run.statement_passes cfg Run.mainModule code s)⟩

/-! ## Prompts -/

namespace Repl

theorem Enters.passes {result : Except Stop Outcome} (enters : Enters cfg m code s result t) :
    Passes cfg m s [(code, announced cfg m code s)] t := by
  cases enters with
  | plain ends => exact ends.passes
  | value ends shows =>
    obtain ⟨lines, rfl⟩ := shows.exists_lines
    exact ends.passes.written lines

/-- The statements of a text that was entered are evaluated in order and once each, up to some of them. -/
theorem Executes.passes {result : Except Stop (Option Int64)} (executes : Executes cfg m s block result t) :
    ∃ past, Passes cfg m s past t ∧ past.map Prod.fst <+: block := by
  induction executes with
  | done s => exact ⟨[], .here, List.prefix_refl []⟩
  | next enters _ _ ih =>
    obtain ⟨past, behind, inOrder⟩ := ih
    exact ⟨_, enters.passes.trans behind, (List.prefix_cons_inj _).2 inOrder⟩
  | exited enters | stopped enters =>
    exact ⟨_, enters.passes, (List.prefix_cons_inj _).2 List.nil_prefix⟩

theorem evaluate_passes (cfg : Config) (m : ModuleId) (block : Block) (s : State) :
    ∃ past, Passes cfg m s past (evaluate cfg m block s).2 ∧ past.map Prod.fst <+: block := by
  obtain ⟨result, t, executes⟩ := exists_executes cfg m s block
  rw [executes.eq]
  exact executes.passes

theorem eq_of_refuse {r r' : Repl} {buffer : String} {failure : Source.Failure} {reply : Reply}
    (goes : r.refuse buffer failure = (reply, .ok r')) : r'.state = r.state ∧ r'.module = r.module := by
  unfold refuse at goes
  split at goes
  · cases goes
  · split at goes <;> cases goes <;> exact ⟨rfl, rfl⟩

/-- One input is answered by evaluating statements of the session's module, if any. -/
theorem passes_of_step {r r' : Repl} {input : Input} {reply : Reply}
    (goes : r.step cfg input = (reply, .ok r')) :
    r'.module = r.module ∧ ∃ past, Passes cfg r.module r.state past r'.state := by
  cases input with
  | endOfInput => cases goes
  | interrupt =>
    rw [step_interrupt] at goes
    split at goes <;> cases goes
    exact ⟨rfl, [], .here⟩
  | line text =>
    rw [step_line] at goes
    split at goes
    · next block _ =>
      obtain ⟨module, state⟩ := eq_of_runBlock goes
      obtain ⟨past, passes, -⟩ := evaluate_passes cfg r.module block r.state
      exact ⟨module, past, state ▸ passes.written #[]⟩
    · obtain ⟨state, module⟩ := eq_of_refuse goes
      rw [state]
      exact ⟨module, [], .here⟩

theorem Session.passes {directory : String} {r : Repl} (session : Session cfg directory r) :
    r.module = Run.mainModule ∧ ∃ past,
      Passes cfg Run.mainModule (State.initial.load (.ofSource moduleName directory "")) past r.state := by
  induction session with
  | start => exact ⟨rfl, [], .here⟩
  | step _ goes ih =>
    obtain ⟨isMain, past, before⟩ := ih
    obtain ⟨same, later, behind⟩ := passes_of_step goes
    exact ⟨same.trans isMain, _, before.trans (isMain ▸ behind)⟩

end Repl

end

end Shiba

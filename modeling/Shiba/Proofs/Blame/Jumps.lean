import Shiba.Proofs.Lockstep.Basic

/-!
# Where jumps come from

A statement that is left by a jump says how it ended, and what encloses it decides what becomes of that.
A conditional passes every jump on.  A loop ends at a break, goes on at a continue and passes nothing but
a return on.  All other statements end by themselves.

* `Stmt.Yields` are the jumps that a statement can be left by, read off its text.
* `Ensures` says something about whatever a step answers when it begins in a given state, and
  `Eval.Answers` in whatever state it begins.
* `evaluators_endAsWritten`: a statement that ends with a jump has it in its text.
-/

namespace Shiba

/-- The statement can be left by the jump.  A jump in a branch of a conditional leaves the conditional;
of the jumps in the body of a loop only a return leaves the loop. -/
inductive Stmt.Yields : Stmt → Jump → Prop
  | breakLoop {p : Position} : Yields (.breakLoop p) .breakLoop
  | continueLoop {p : Position} : Yields (.continueLoop p) .continueLoop
  | returnValue {p : Position} {value : Option Expr} : Yields (.returnValue p value) .returnValue
  | branch {p : Position} {branches : List (Expr × Block)} {otherwise : Option Block}
    {branch : Expr × Block} {s : Stmt} {jump : Jump} : branch ∈ branches → s ∈ branch.2 →
    s.Yields jump → Yields (.conditional p branches otherwise) jump
  | otherwise {p : Position} {branches : List (Expr × Block)} {block : Block} {s : Stmt} {jump : Jump} :
    s ∈ block → s.Yields jump → Yields (.conditional p branches (some block)) jump
  | forIn {p : Position} {target : Expr} {counter element : Ident} {body : Block} {s : Stmt} :
    s ∈ body → s.Yields .returnValue → Yields (.forIn p target counter element body) .returnValue
  | loop {p : Position} {condition : Expr} {body : Block} {s : Stmt} : s ∈ body →
    s.Yields .returnValue → Yields (.loop p condition body) .returnValue

/-- Some statement of a block can be left by the jump. -/
def Block.Yields (block : Block) (jump : Jump) : Prop := ∃ s ∈ block, s.Yields jump

/-- The jump something ended with, if any, is one of some jumps. -/
def Flow.JumpsIn (jumps : Jump → Prop) (flow : Flow) : Prop := ∀ jump ∈ flow.jump?, jumps jump

namespace Flow.JumpsIn

variable {P Q : Jump → Prop} {flow : Flow}

theorem of_none (ends : flow.jump? = none) : flow.JumpsIn P := by
  intro jump isJump
  rw [ends] at isJump
  cases isJump

theorem mono (jumps : flow.JumpsIn P) (weaker : ∀ jump, P jump → Q jump) : flow.JumpsIn Q :=
  fun jump isJump => weaker jump (jumps jump isJump)

/-- A loop that is left after a turn was left by a return, or ends by itself. -/
theorem afterTurn {flow' : Flow} (jumps : flow.JumpsIn P) (leaves : Eval.afterTurn flow = some flow') :
    flow'.JumpsIn fun jump => jump = .returnValue ∧ P jump := by
  cases flow with
  | breakLoop =>
    cases leaves
    exact of_none rfl
  | returnValue b =>
    cases leaves
    intro jump isJump
    have here := jumps jump isJump
    cases isJump
    exact ⟨rfl, here⟩
  | done | value | continueLoop => cases leaves

end Flow.JumpsIn

/-! ## What steps answer -/

/-- Whatever a step answers when it begins in a state, if it answers at all. -/
def Ensures {σ α : Type} (act : ExceptT Stop (StateM σ) α) (s : σ) (Q : α → σ → Prop) : Prop :=
  ∀ x t, act s = (.ok x, t) → Q x t

namespace Ensures

variable {σ α β : Type} {a : ExceptT Stop (StateM σ) α} {f : α → ExceptT Stop (StateM σ) β} {s : σ}
  {P : α → σ → Prop} {Q : β → σ → Prop}

theorem pure {x : α} (here : P x s) : Ensures (pure x) s P := by
  intro y t run
  cases run
  exact here

theorem throw (stop : Stop) : Ensures (throw stop) s P := by
  intro y t run
  cases run

theorem of_run {x : α} {t : σ} (run : a s = (.ok x, t)) (here : P x t) : Ensures a s P := by
  intro y u run'
  rw [run] at run'
  cases run'
  exact here

theorem bind (first : Ensures a s P) (rest : ∀ x t, P x t → Ensures (f x) t Q) :
    Ensures (a >>= f) s Q := by
  intro y u run
  change (ExceptT.bindCont f (a s).1 : StateM σ _) (a s).2 = _ at run
  rcases ran : a s with ⟨stop | x, t⟩
  · rw [ran] at run
    cases run
  · rw [ran] at run
    exact rest x t (first x t ran) y u run

/-- What follows a step can be all that matters. -/
theorem after (rest : ∀ x t, Ensures (f x) t Q) : Ensures (a >>= f) s Q :=
  bind (P := fun _ _ => True) (fun _ _ _ => trivial) fun x t _ => rest x t

end Ensures

namespace Eval

variable {α β : Type}

/-- Whatever a step answers has a property. -/
def Answers (a : Eval α) (Q : α → Prop) : Prop := ∀ s, Ensures a s fun x _ => Q x

namespace Answers

variable {a : Eval α} {f : α → Eval β} {P : α → Prop} {Q : β → Prop}

theorem pure {x : α} (here : P x) : (pure x : Eval α).Answers P := fun _ => .pure here

theorem throw (stop : Stop) : (throw stop : Eval α).Answers P := fun _ => .throw stop

/-- Nothing is asked of what a step answers. -/
theorem anything (a : Eval α) : a.Answers fun _ => True := fun _ _ _ _ => trivial

theorem mono {P' : α → Prop} (first : a.Answers P) (weaker : ∀ x, P x → P' x) : a.Answers P' :=
  fun s x t run => weaker x (first s x t run)

theorem bind (first : a.Answers P) (rest : ∀ x, P x → (f x).Answers Q) : (a >>= f).Answers Q :=
  fun s => (first s).bind fun x t here => rest x here t

theorem after (rest : ∀ x, (f x).Answers Q) : (a >>= f).Answers Q := fun _ => .after fun x t => rest x t

theorem located (inner : a.Answers P) (m : ModuleId) (p : Position) : (located m p a).Answers P := by
  intro s x t run
  rw [Eval.located] at run
  rcases ran : a s with ⟨stop | y, u⟩
  · rw [ran] at run
    cases run
  · rw [ran] at run
    cases run
    exact inner s x t ran

theorem within (inner : a.Answers P) (opening closing : Eval Unit) :
    (within opening closing a).Answers P := by
  refine after fun _ => ?_
  have observed : (observe a).Answers fun result => ∀ x, result = .ok x → P x := by
    intro s result t run x isOk
    cases run
    exact inner s x (a s).2 (Prod.ext isOk rfl)
  refine observed.bind fun result here => after fun _ => ?_
  cases result with
  | ok x => exact pure (here x rfl)
  | error stop => exact throw stop

theorem inBlock (inner : a.Answers P) (m : ModuleId) : (inBlock m a).Answers P :=
  after fun _ => inner.within _ _

end Answers

/-! ## How statements end -/

/-- Statements end as their texts say. -/
def EndsAsWritten (run : Stmt → Eval Flow) : Prop := ∀ s, (run s).Answers (Flow.JumpsIn s.Yields)

variable {ev : Evaluators} {cfg : Config} {ctx : Context}

theorem EndsAsWritten.runBlock {run : Stmt → Eval Flow} (written : EndsAsWritten run) (block : Block) :
    (runBlock run block).Answers (Flow.JumpsIn block.Yields) := by
  induction block with
  | nil => exact .pure (.of_none rfl)
  | cons s rest ih =>
    refine (written s).bind fun flow jumps => ?_
    split
    · exact .pure (jumps.mono fun jump yields => ⟨s, List.mem_cons_self, yields⟩)
    · refine ih.mono fun flow jumps => jumps.mono fun jump yields => ?_
      obtain ⟨s', member, yields⟩ := yields
      exact ⟨s', List.mem_cons_of_mem s member, yields⟩

theorem answers_runBranches (written : EndsAsWritten (ev.stmt ctx)) (p : Position)
    (otherwise : Option Block) (branches tried : List (Expr × Block)) :
    (runBranches ev cfg ctx otherwise branches).Answers
      (Flow.JumpsIn (Stmt.conditional p (tried ++ branches) otherwise).Yields) := by
  induction branches generalizing tried with
  | nil =>
    cases otherwise with
    | none => exact .pure (.of_none rfl)
    | some block =>
      refine (written.runBlock block).mono fun flow jumps => jumps.mono fun jump yields => ?_
      obtain ⟨s, member, yields⟩ := yields
      exact .otherwise member yields
  | cons branch rest ih =>
    refine .after fun holds => ?_
    split
    · refine (written.runBlock branch.2).mono fun flow jumps => jumps.mono fun jump yields => ?_
      obtain ⟨s, member, yields⟩ := yields
      exact .branch (List.mem_append_right _ List.mem_cons_self) member yields
    · rw [List.append_cons]
      exact ih (tried ++ [branch])

/-- The returns in the body of a loop. -/
def bodyReturns (body : Block) (jump : Jump) : Prop := jump = .returnValue ∧ body.Yields jump

theorem answers_forTurns (written : EndsAsWritten (ev.stmt ctx)) (counter element : String)
    (body : Block) (boxes : List BoxId) (turn : Nat) :
    (forTurns ev ctx counter element body boxes turn).Answers (Flow.JumpsIn (bodyReturns body)) := by
  induction boxes generalizing turn with
  | nil => exact .pure (.of_none rfl)
  | cons b rest ih =>
    refine .after fun _ => .after fun _ => .after fun _ => .after fun _ => ?_
    refine (written.runBlock body).bind fun flow jumps => ?_
    split
    · next leaves => exact .pure (jumps.afterTurn leaves)
    · exact ih (turn + 1)

theorem answers_whileTurns (written : EndsAsWritten (ev.stmt ctx)) (e : Expr) (body : Block)
    (fuel : Nat) :
    (whileTurns ev cfg ctx e body fuel).Answers (Flow.JumpsIn (bodyReturns body)) := by
  induction fuel with
  | zero => exact .throw _
  | succ fuel ih =>
    refine .after fun holds => ?_
    split
    · refine (written.runBlock body).bind fun flow jumps => ?_
      split
      · next leaves => exact .pure (jumps.afterTurn leaves)
      · exact ih
    · exact .pure (.of_none rfl)

theorem answers_forLoop (written : EndsAsWritten (ev.stmt ctx)) (target : Expr)
    (counter element : String) (body : Block) :
    (forLoop ev ctx target counter element body).Answers (Flow.JumpsIn (bodyReturns body)) := by
  have turns (v : Value) : (inBlock ctx.module do
      let s ← onHeap (Sequence.ofValue v)
      let boxes ← onHeap s.elements
      forTurns ev ctx counter element body boxes 0).Answers (Flow.JumpsIn (bodyReturns body)) :=
    .inBlock (.after fun _ => .after fun boxes =>
      answers_forTurns written counter element body boxes 0) ctx.module
  refine .after fun _ => .after fun v => ?_
  dsimp only
  split
  · exact .after fun _ => .after fun _ => turns v
  · exact turns v

/-- A statement that ends with a jump has it in its text. -/
theorem endsAsWritten_stmt (written : EndsAsWritten (ev.stmt ctx)) (turns : Nat) :
    EndsAsWritten (Eval.stmt ev cfg turns ctx) := by
  intro s
  apply Answers.located
  cases s with
  | comment => exact .pure (.of_none rfl)
  | importModule | assign | function | structDecl => exact .after fun _ => .pure (.of_none rfl)
  | expr e => exact .after fun _ => .pure (.of_none rfl)
  | conditional p branches otherwise =>
    exact (answers_runBranches written p otherwise branches []).inBlock ctx.module
  | forIn p target counter element body =>
    refine (answers_forLoop written target counter.name element.name body).mono fun flow jumps => ?_
    refine jumps.mono fun jump returns => ?_
    obtain ⟨rfl, s, member, yields⟩ := returns
    exact .forIn member yields
  | loop p e body =>
    refine .inBlock ((answers_whileTurns written e body turns).mono fun flow jumps => ?_) ctx.module
    refine jumps.mono fun jump returns => ?_
    obtain ⟨rfl, s, member, yields⟩ := returns
    exact .loop member yields
  | returnValue p value =>
    have ends (b : Option BoxId) : (Flow.returnValue b).JumpsIn (Stmt.returnValue p value).Yields := by
      intro jump isJump
      cases isJump
      exact .returnValue
    cases value with
    | none => exact .pure (ends none)
    | some e => exact .after fun b => .pure (ends (some b))
  | breakLoop p =>
    refine .pure fun jump isJump => ?_
    cases isJump
    exact .breakLoop
  | continueLoop p =>
    refine .pure fun jump isJump => ?_
    cases isJump
    exact .continueLoop

end Eval

/-- Whatever the fuel, statements end as their texts say. -/
theorem evaluators_endAsWritten (cfg : Config) (fuel : Nat) (ctx : Context) :
    Eval.EndsAsWritten ((evaluators cfg fuel).stmt ctx) := by
  induction fuel generalizing ctx with
  | zero =>
    intro s
    change (evalStmt cfg 0 ctx s).Answers _
    rw [evalStmt_zero]
    exact .throw _
  | succ fuel ih =>
    intro s
    change (evalStmt cfg (fuel + 1) ctx s).Answers _
    rw [evalStmt_succ]
    exact Eval.endsAsWritten_stmt (ih ctx) fuel s

end Shiba

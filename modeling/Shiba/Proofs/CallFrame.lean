import Shiba.Proofs.LoopTurns
import Shiba.Proofs.Tracing.Basic

/-!
# Inside the frame of a call

Code that binds names and makes new values, and does nothing else, changes a state in two ways only: the
heap grows, and names come up in the frame of the call it runs in.  What such code does can be followed step
by step.

* `Eval.Ends act s Q`: the step comes to its end, and `Q` holds of its answer and of the state it leaves.
* `InFrame cfg s m F u`: `u` is the state `s` in a call of a function of the module `m` whose frame is `F`,
  with a larger heap and lines of tracing.
* `InFrame.declare`, `InFrame.block`, `InFrame.condition`, …: what steps leave of the frame.
* `Ends.forTurns`: the turns of a loop, with an invariant.
* `ends_callFunction`: a call whose body ends in its frame leaves nothing behind but its answer.
-/

namespace Shiba

/-! ## Steps that end -/

namespace Eval

variable {α β : Type}

/-- A step comes to its end: `Q` holds of what it answers and of the state it leaves. -/
def Ends (act : Eval α) (s : State) (Q : α → State → Prop) : Prop :=
  ∃ x t, act s = (.ok x, t) ∧ Q x t

namespace Ends

variable {act : Eval α} {f : α → Eval β} {s t : State} {x : α} {P Q : α → State → Prop}
  {R : β → State → Prop}

theorem of_run (run : act s = (.ok x, t)) (here : Q x t) : Ends act s Q := ⟨x, t, run, here⟩

theorem congr {act' : Eval α} (same : act s = act' t) (ends : Ends act' t Q) : Ends act s Q := by
  rw [Ends, same]
  exact ends

theorem pure (here : Q x s) : Ends (Pure.pure x) s Q := ⟨x, s, rfl, here⟩

theorem bind (first : Ends act s P) (rest : ∀ x t, P x t → Ends (f x) t R) : Ends (act >>= f) s R := by
  obtain ⟨x, t, run, here⟩ := first
  obtain ⟨y, u, run', here'⟩ := rest x t here
  exact ⟨y, u, (bind_ok run).trans run', here'⟩

/-- A step of which the outcome is known is passed over. -/
theorem after (run : act s = (.ok x, t)) (rest : Ends (f x) t R) : Ends (act >>= f) s R :=
  rest.imp fun _ => Exists.imp fun _ both => ⟨(bind_ok run).trans both.1, both.2⟩

theorem mono (ends : Ends act s P) (weaker : ∀ x t, P x t → Q x t) : Ends act s Q :=
  ends.imp fun x => Exists.imp fun t both => ⟨both.1, weaker x t both.2⟩

theorem located {m : ModuleId} {p : Position} (ends : Ends act s Q) : Ends (Eval.located m p act) s Q :=
  ends.imp fun _ => Exists.imp fun _ both => ⟨located_ok both.1, both.2⟩

/-- The first statement of a block either leaves the block or is followed by the others. -/
theorem runBlock_cons {run : Stmt → Eval Flow} {stmt : Stmt} {rest : Block} {P Q : Flow → State → Prop}
    (first : Ends (run stmt) s P) (leaves : ∀ flow t, P flow t → flow.jump?.isSome → Q flow t)
    (goesOn : ∀ flow t, P flow t → flow.jump? = none → Ends (runBlock run rest) t Q) :
    Ends (runBlock run (stmt :: rest)) s Q := by
  refine bind first fun flow t here => ?_
  cases jumps : flow.jump? with
  | some jump =>
    rw [if_pos Option.isSome_some]
    exact pure (leaves flow t here (by rw [jumps]; rfl))
  | none =>
    exact goesOn flow t here jumps

/-- The last statement of a block.  A block that is not left ends without a value. -/
theorem runBlock_last {run : Stmt → Eval Flow} {stmt : Stmt} {Q : Flow → State → Prop}
    (last : Ends (run stmt) s Q) (settles : ∀ flow t, Q flow t → flow.jump? = none → Q .done t) :
    Ends (runBlock run [stmt]) s Q :=
  runBlock_cons last (fun _ _ here _ => here) fun flow t here stays => .pure (settles flow t here stays)

/-- A step for every element of a list, with an invariant of the elements that are done. -/
theorem forM {γ : Type} {step : γ → Eval Unit} {I : List γ → State → Prop} (xs : List γ)
    (start : I [] s) (each : ∀ x ∈ xs, ∀ done t, I done t → Ends (step x) t fun _ u => I (done ++ [x]) u) :
    Ends (xs.forM step) s fun _ t => I xs t := by
  suffices general : ∀ (rest done : List γ) (t : State), done ++ rest = xs → I done t →
      Ends (rest.forM step) t fun _ u => I xs u from general xs [] s rfl start
  intro rest
  induction rest with
  | nil =>
    intro done t whole here
    rw [List.append_nil] at whole
    exact pure (whole ▸ here)
  | cons x rest ih =>
    intro done t whole here
    have member : x ∈ xs := whole ▸ List.mem_append_right done List.mem_cons_self
    refine bind (f := fun _ => rest.forM step) (each x member done t here) fun _ u here' => ?_
    exact ih (done ++ [x]) u (by rw [← whole, List.append_assoc, List.singleton_append]) here'

/-- The turns of a loop over a sequence: `I k` holds before the turn `k`, and `R` when a turn leaves the
loop.  The induction is on the boxes that are left. -/
theorem forTurns {ev : Evaluators} {ctx : Context} {counter element : String} {body : Block}
    {boxes : List BoxId} {I : Nat → State → Prop} {R : Flow → State → Prop} (start : I 0 s)
    (turn : ∀ k b, boxes[k]? = some b → ∀ t, I k t →
      Ends (beginTurn ctx.module counter element k b >>= fun _ => runBlock (ev.stmt ctx) body) t
        fun flow u => match afterTurn flow with
          | some flow => R flow u
          | none => I (k + 1) u) :
    Ends (Eval.forTurns ev ctx counter element body boxes 0) s
      fun flow t => R flow t ∨ flow = .done ∧ I boxes.length t := by
  suffices general : ∀ (left : List BoxId) (k : Nat) (t : State), boxes.drop k = left → k ≤ boxes.length →
      I k t → Ends (Eval.forTurns ev ctx counter element body left k) t
        fun flow u => R flow u ∨ flow = .done ∧ I boxes.length u from
    general boxes 0 s rfl (Nat.zero_le _) start
  intro left
  induction left with
  | nil =>
    intro k t rest within here
    obtain rfl : k = boxes.length := Nat.le_antisymm within (List.drop_eq_nil_iff.1 rest)
    exact pure (.inr ⟨rfl, here⟩)
  | cons b left ih =>
    intro k t rest within here
    have found : boxes[k]? = some b := by
      rw [← List.head?_drop, rest]
      rfl
    rw [forTurns_eq_beginTurn, ← bind_assoc]
    refine bind (turn k b found t here) fun flow u after => ?_
    cases leaves : afterTurn flow with
    | some flow' =>
      rw [leaves] at after
      exact pure (.inl after)
    | none =>
      rw [leaves] at after
      refine ih (k + 1) u ?_ (List.getElem?_eq_some_iff.1 found).1 after
      rw [← List.tail_drop, rest]
      rfl

end Ends

end Eval

/-! ## Elements of sequences -/

/-- The boxes hold the elements of a sequence, one after another.  Those of a list are its own. -/
structure Heap.Supplies (h : Heap) (v : Value) (boxes : List BoxId) : Prop where
  there : ∀ b ∈ boxes, h.Has (.box b)
  value : ∀ k, boxes[k]?.map h.value = v.elementAt? h k
  own : ∀ l, v = .list l → boxes = (h.items l).toList

/-- The elements of a sequence are in the boxes of the list, or can be put into new ones. -/
theorem HeapM.adds_elements {h : Heap} {v : Value} (sound : h.Sound) (knows : h.Knows v)
    (isSequence : v.isSequence) :
    Adds (Sequence.ofValue v >>= Sequence.elements) h True fun boxes h' => h'.Supplies v boxes := by
  cases v with
  | str text =>
    let holds (h' : Heap) (c : Char) (b : BoxId) : Prop :=
      h'.Has (.box b) ∧ h'.value b = .str (String.singleton c)
    have each : Adds (text.toList.mapM fun c => alloc (.str (String.singleton c))) h True fun boxes h' =>
        List.Forall₂ (holds h') text.toList boxes := by
      refine .mapM (S := holds) sound text.toList
        (fun _ grows made => ⟨grows.has made.1, (grows.value_eq made.1).trans made.2⟩) ?_
      intro c _ h' _ sound'
      exact (adds_alloc sound' (v := .str (String.singleton c)) trivial).mono id
        fun b h'' _ _ made => ⟨made.1.there, made.2⟩
    refine each.mono id fun boxes h' _ _ made => ⟨fun b member => ?_, fun k => ?_, nofun⟩
    · obtain ⟨c, -, here⟩ := Heap.exists_of_mem made.flip member
      exact here.1
    · have same : boxes.map h'.value = text.toList.map fun c => .str (String.singleton c) := by
        rw [← List.forall₂_eq_eq_eq, List.forall₂_map_left_iff, List.forall₂_map_right_iff]
        exact made.flip.imp fun _ _ here => here.2
      rw [← List.getElem?_map, same, List.getElem?_map]
      rfl
  | list l =>
    refine .pure sound ⟨fun b member => sound.items l b (Array.mem_toList_iff.1 member), fun k => ?_, ?_⟩
    · rw [Array.getElem?_toList]
      rfl
    · rintro _ ⟨⟩
      rfl
  | nil | bool | int | float | dict | struct | function | method | builtin | module | structDef =>
    cases isSequence

/-! ## States inside a call -/

/-- The lines written meanwhile are lines of tracing, and there are none where a level is not traced. -/
def OnlyTraced (cfg : Config) (level : Int) (before after : Array Line) : Prop :=
  ∃ lines : List String, after = before ++ (lines.map Line.trace).toArray ∧
    (cfg.debugLevel < level → lines = [])

namespace OnlyTraced

theorem refl (cfg : Config) (level : Int) (lines : Array Line) : OnlyTraced cfg level lines lines :=
  ⟨[], (Array.append_empty).symm, fun _ => rfl⟩

theorem trans {cfg : Config} {level : Int} {first second third : Array Line}
    (quiet : OnlyTraced cfg level first second) (quiet' : OnlyTraced cfg level second third) :
    OnlyTraced cfg level first third := by
  obtain ⟨lines, rfl, silent⟩ := quiet
  obtain ⟨lines', rfl, silent'⟩ := quiet'
  refine ⟨lines ++ lines', by simp, fun untraced => ?_⟩
  rw [silent untraced, silent' untraced]
  rfl

end OnlyTraced

theorem Eval.Ends.trace (cfg : Config) (level : Int) {text : Eval String} {line : String} {s : State}
    (shown : text s = (.ok line, s)) : Ends (Eval.trace cfg level text) s fun _ t =>
      t = { s with output := t.output } ∧ OnlyTraced cfg level s.output t.output := by
  rw [Eval.trace]
  split
  · next traced =>
    refine .of_run (bind_ok shown) ⟨rfl, [line], ?_, fun silent => absurd traced (Int.not_le.2 silent)⟩
    exact Array.push_eq_append
  · exact .pure ⟨rfl, .refl cfg level s.output⟩

/-- The scope in a call with a frame. -/
def Scope.withFrame {α β : Type} (s : Scope α β) (F : Frame α β) : Scope α β :=
  { s with frames := F :: s.frames }

/-- The frame with a name bound in its innermost level. -/
def Frame.declare {α β : Type} (F : Frame α β) (name : String) (a : α) : Frame α β :=
  { F with objs := F.objs.declare name a }

/-- The frame with one more block, in which some names are bound. -/
def Frame.inner {α β : Type} (F : Frame α β) (level : OrderedMap String α) : Frame α β :=
  ⟨⟨F.objs.body, level :: F.objs.blocks⟩, F.structs.push⟩

theorem Frame.get?_inner {α β : Type} (F : Frame α β) (level : OrderedMap String α) (name : String) :
    (F.inner level).objs.get? name = (level.get? name).or (F.objs.get? name) := by
  change Levels.findIn name (level :: F.objs.toList) = _
  rw [Levels.findIn]
  cases level.get? name <;> rfl

/-- The module `m` stands for the module `m₀`. -/
structure State.Site (s : State) (m₀ m : ModuleId) : Prop where
  module : s.HasModule m₀
  here : s.HasModule m
  stands : s.Stands m₀ m

/-- The state `s` in a call of a function of the module `m`: the call has the frame `F`, and meanwhile the
heap has become another sound one and lines of tracing have been written. -/
structure InFrame (cfg : Config) (s : State) (m : ModuleId) (F : Frame BoxId StructId) (u : State) :
    Prop where
  registry : u.registry = s.registry.modifyScope m (·.withFrame F)
  builtins : u.builtins = s.builtins
  output : OnlyTraced cfg 3 s.output u.output
  sound : u.heap.Sound

namespace InFrame

open Eval

variable {cfg : Config} {s u : State} {m₀ m : ModuleId} {F : Frame BoxId StructId}

theorem stands (inside : InFrame cfg s m F u) (site : s.Site m₀ m) : u.Stands m₀ m := by
  have later := site.stands.mono (s.extends_modifyScope m (·.withFrame F)) site.module
  rwa [State.Stands, inside.registry]

theorem scopeOf (inside : InFrame cfg s m F u) (site : s.Site m₀ m) :
    u.scopeOf m = (s.scopeOf m).withFrame F := by
  rw [State.scopeOf, inside.registry, Registry.module_modifyScope_self _ site.here]
  rfl

/-- A change of the scope is a change of the frame. -/
theorem modifyScope (inside : InFrame cfg s m F u) {F' : Frame BoxId StructId}
    {f : Scope BoxId StructId → Scope BoxId StructId}
    (changes : ∀ scope : Scope BoxId StructId, f (scope.withFrame F) = scope.withFrame F') :
    InFrame cfg s m F' (u.modifyScope m f) := by
  refine { inside with registry := ?_ }
  rw [State.modifyScope, inside.registry, Registry.modifyScope_modifyScope]
  exact congrArg (s.registry.modifyScope m) (funext changes)

/-- A step that makes the heap grow leaves the frame. -/
theorem onHeap {α : Type} {act : HeapM α} {can : Prop} {Q : α → Heap → Prop} (inside : InFrame cfg s m F u)
    (adds : HeapM.Adds act u.heap can Q) (able : can) : Ends (Eval.onHeap act) u fun x t =>
      InFrame cfg s m F t ∧ u.heap.Grows t.heap ∧ Q x t.heap := by
  obtain ⟨result, h, run, grows, sound, holds, answers⟩ := adds
  obtain ⟨x, rfl⟩ := answers able
  refine .of_run (t := u.withHeap h) ?_ ⟨{ inside with sound }, grows, holds x rfl⟩
  rw [onHeap_apply, run]

theorem alloc {v : Value} (inside : InFrame cfg s m F u) (knows : u.heap.Knows v) :
    Ends (Eval.alloc v) u fun b t => InFrame cfg s m F t ∧ u.heap.Grows t.heap ∧
      u.heap.Added t.heap (.box b) ∧ t.heap.value b = v :=
  inside.onHeap (HeapM.adds_alloc inside.sound knows) trivial

/-- A name is bound in the innermost level of the frame. -/
theorem declare (inside : InFrame cfg s m F u) (site : s.Site m₀ m) (name : String) (b : BoxId) :
    Ends (declareObj m₀ name b) u fun _ t => InFrame cfg s m (F.declare name b) t ∧ t.heap = u.heap :=
  .of_run (run_onScope (inside.stands site)) ⟨inside.modifyScope fun _ => rfl, rfl⟩

/-- A name is bound to a new box. -/
theorem declareNew (inside : InFrame cfg s m F u) (site : s.Site m₀ m) (name : String) {v : Value}
    (knows : u.heap.Knows v) : Ends (Eval.alloc v >>= declareObj m₀ name) u fun _ t =>
      ∃ b, InFrame cfg s m (F.declare name b) t ∧ u.heap.Grows t.heap ∧ u.heap.Added t.heap (.box b) ∧
        t.heap.value b = v := by
  refine .bind (inside.alloc knows) fun b t ⟨inside, grows, added, holds⟩ => ?_
  refine (inside.declare site name b).mono fun _ t' ⟨inside, same⟩ => ?_
  rw [← same] at grows added holds
  exact ⟨b, inside, grows, added, holds⟩

/-- A name that is bound in the frame evaluates to the box it is bound to. -/
theorem ident (inside : InFrame cfg s m F u) (site : s.Site m₀ m) {name : String} {b : BoxId}
    (found : F.objs.get? name = some b) (fuel calls : Nat) (p : Position) :
    evalExpr cfg (fuel + 1) ⟨m₀, calls⟩ (.ident p name) u = (.ok b, u) := by
  refine evalExpr_ident ?_
  rw [run_getObj? (inside.stands site), inside.scopeOf site]
  exact congrArg (fun x => (Except.ok (Option.or x _), u)) found

/-- What runs in a block of its own leaves the frame around the block. -/
theorem block {α : Type} {act : Eval α} {Q : α → Heap → Prop} (inside : InFrame cfg s m F u)
    (site : s.Site m₀ m) (runs : ∀ t, InFrame cfg s m (F.inner .empty) t → t.heap = u.heap →
      Ends act t fun x t' => (∃ level, InFrame cfg s m (F.inner level) t') ∧ Q x t'.heap) :
    Ends (inBlock m₀ act) u fun x t => InFrame cfg s m F t ∧ Q x t.heap := by
  obtain ⟨x, t, run, ⟨level, inside'⟩, holds⟩ := runs (u.openBlock m) (inside.modifyScope fun _ => rfl) rfl
  have active : (t.registry.module m).scope.blockDepth ≠ 0 := by
    change (t.scopeOf m).blockDepth ≠ 0
    rw [inside'.scopeOf site]
    exact Nat.succ_ne_zero _
  refine .of_run (Discipline.Agree.run_inBlock (inside.stands site) run active) ⟨?_, holds⟩
  exact inside'.modifyScope fun _ => rfl

/-- Tracing leaves the frame. -/
theorem trace (inside : InFrame cfg s m F u) {text : Eval String} {line : String}
    (shown : text u = (.ok line, u)) :
    Ends (Eval.trace cfg 3 text) u fun _ t => InFrame cfg s m F t ∧ t.heap = u.heap := by
  refine (Ends.trace cfg 3 shown).mono fun _ t ⟨same, quiet⟩ => ?_
  rw [same]
  exact ⟨{ inside with output := inside.output.trans quiet }, rfl⟩

/-! ## Expressions -/

/-- An expression comes to a value, and leaves the frame it is evaluated in. -/
def ComesTo (cfg : Config) (s : State) (m : ModuleId) (F : Frame BoxId StructId) (fuel : Nat) (ctx : Context)
    (e : Expr) (u : State) (v : Value) : Prop :=
  Ends (evalExpr cfg fuel ctx e) u fun b t => InFrame cfg s m F t ∧ u.heap.Grows t.heap ∧ t.heap.value b = v

theorem literal {v : Literal} {w : Value} (inside : InFrame cfg s m F u) (knows : u.heap.Knows w)
    (means : Eval.literal v = Eval.alloc w) (fuel : Nat) (ctx : Context) (p : Position) :
    ComesTo cfg s m F (fuel + 1) ctx (.literal p v) u w := by
  rw [ComesTo, evalExpr_succ, Eval.expr, means]
  exact .located ((inside.alloc knows).mono fun b t made => ⟨made.1, made.2.1, made.2.2.2⟩)

/-- A literal with a minus sign. -/
theorem negative (inside : InFrame cfg s m F u) (n : Int64) (fuel : Nat) (ctx : Context) (p p' : Position) :
    ComesTo cfg s m F (fuel + 2) ctx (.unary p .minus (.literal p' (.int n))) u
      (.int (Integer.negate n)) := by
  rw [ComesTo, evalExpr_succ, Eval.expr]
  have operand := inside.literal (v := .int n) (w := .int n) trivial rfl fuel ctx p'
  refine .located (.bind operand ?_)
  rintro b t ⟨inside', grows, holds⟩
  have negated : Eval.onHeap (UnaryOp.apply .minus (t.heap.value b)) t =
      (.ok (.int (Integer.negate n)), t) := by
    rw [holds]
    rfl
  refine .after (run_read b t) (.after negated ?_)
  refine (inside'.alloc (v := .int (Integer.negate n)) trivial).mono fun c v made => ?_
  exact ⟨made.1, grows.trans made.2.1, made.2.2.2⟩

/-- Two names are compared. -/
theorem equal {x y : String} {a b : BoxId} {answer : Bool} (inside : InFrame cfg s m F u) (site : s.Site m₀ m)
    (left : F.objs.get? x = some a) (right : F.objs.get? y = some b)
    (compared : u.heap.equal cfg.dataLimit (u.heap.value a) (u.heap.value b) = .ok answer) (fuel calls : Nat)
    (p p' p'' : Position) :
    ComesTo cfg s m F (fuel + 2) ⟨m₀, calls⟩ (.binary p .equal (.ident p' x) (.ident p'' y)) u
      (.bool answer) := by
  have answers : Eval.onHeap (BinaryOp.apply cfg.dataLimit .equal (u.heap.value a) (u.heap.value b)) u =
      (.ok (.bool answer), u) := by
    rw [onHeap_apply, BinaryOp.apply]
    have run : HeapM.answer (fun h => h.equal cfg.dataLimit (u.heap.value a) (u.heap.value b)) u.heap =
        (.ok answer, u.heap) := by
      rw [HeapM.answer, HeapM.run_bind (HeapM.run_get u.heap), compared]
      rfl
    rw [HeapM.run_bind run]
    rfl
  rw [ComesTo, evalExpr_succ, Eval.expr]
  refine .located (.after (inside.ident site left fuel calls p') (.after (run_read a u) ?_))
  refine .after (inside.ident site right fuel calls p'') (.after (run_read a u) (.after (run_read b u) ?_))
  refine .after answers ((inside.alloc (v := .bool answer) trivial).mono fun c t made => ?_)
  exact ⟨made.1, made.2.1, made.2.2.2⟩

/-! ## Statements -/

/-- A condition that comes to a boolean. -/
theorem condition {fuel : Nat} {ctx : Context} {e : Expr} {holds : Bool} (room : cfg.dataLimit ≠ 0)
    (what : String) (evaluates : ComesTo cfg s m F fuel ctx e u (.bool holds)) :
    Ends (Eval.condition (evaluators cfg fuel) cfg ctx what e) u fun x t =>
      x = holds ∧ InFrame cfg s m F t ∧ u.heap.Grows t.heap := by
  refine .bind evaluates fun b t ⟨inside, grows, isBool⟩ => ?_
  have shown : t.heap.canonical cfg.dataLimit (t.heap.value b) =
      some (if holds then "true" else "false") := by
    obtain ⟨n, limit⟩ := Nat.exists_eq_succ_of_ne_zero room
    rw [isBool, limit]
    rfl
  have truth : t.heap.truthy (t.heap.value b) = holds := by
    rw [isBool]
    rfl
  refine .after (run_get t) (.after (run_read b t) ?_)
  rw [truth]
  refine .bind (inside.trace (bind_ok (run_canonical_some shown))) fun _ t' ⟨inside', same⟩ => ?_
  exact .pure ⟨rfl, inside', same ▸ grows⟩

/-- A conditional with one branch.  The branch runs in a block of its own. -/
theorem conditional {fuel calls : Nat} {p : Position} {e : Expr} {block : Block} {Q : Flow → Heap → Prop}
    (inside : InFrame cfg s m F u) (site : s.Site m₀ m) (room : cfg.dataLimit ≠ 0) (holds : Bool)
    (evaluates : ∀ t, InFrame cfg s m (F.inner .empty) t → t.heap = u.heap →
      ComesTo cfg s m (F.inner .empty) fuel ⟨m₀, calls⟩ e t (.bool holds))
    (yes : holds = true → ∀ t, InFrame cfg s m (F.inner .empty) t → u.heap.Grows t.heap →
      Ends (runBlock (evalStmt cfg fuel ⟨m₀, calls⟩) block) t fun flow t' =>
        (∃ level, InFrame cfg s m (F.inner level) t') ∧ Q flow t'.heap)
    (no : holds = false → ∀ h, u.heap.Grows h → Q .done h) :
    Ends (evalStmt cfg (fuel + 1) ⟨m₀, calls⟩ (.conditional p [(e, block)] none)) u fun flow t =>
      InFrame cfg s m F t ∧ Q flow t.heap := by
  rw [evalStmt_succ, Eval.stmt]
  refine .located (inside.block site fun t inside same => ?_)
  refine .bind (condition room "if" (evaluates t inside same)) fun x t' ⟨isHeld, inside', grows⟩ => ?_
  rw [same] at grows
  subst isHeld
  cases x with
  | true => exact yes rfl t' inside' grows
  | false => exact .pure ⟨⟨.empty, inside'⟩, no rfl t'.heap grows⟩

/-- A turn begins with the counter and a copy of the element in new boxes. -/
theorem beginTurn (inside : InFrame cfg s m F u) (site : s.Site m₀ m) (counter element : String) (k : Nat)
    {b : BoxId} (there : u.heap.Has (.box b)) : Ends (Eval.beginTurn m₀ counter element k b) u fun _ t =>
      ∃ c e, InFrame cfg s m ((F.declare counter c).declare element e) t ∧ u.heap.Grows t.heap ∧
        (u.heap.Added t.heap (.box c) ∧ t.heap.value c = .int (.ofNat k)) ∧
          u.heap.Added t.heap (.box e) ∧ t.heap.value e = u.heap.value b := by
  refine (Ends.bind (f := fun _ => Eval.copy b >>= declareObj m₀ element)
    (inside.declareNew site counter (v := .int (.ofNat k)) trivial) ?_).mono fun _ _ => id
  rintro _ t ⟨c, inside, grows, added, isNumber⟩
  refine (inside.declareNew site element (inside.sound.value b)).mono ?_
  rintro _ t' ⟨e, inside', grows', added', isElement⟩
  refine ⟨c, e, inside', grows.trans grows', ⟨added.grown grows', ?_⟩, added'.since grows, ?_⟩
  · exact (grows'.value_eq added.there).trans isNumber
  · exact isElement.trans (grows.value_eq there)

/-- A loop over the sequence that a name is bound to.  The turns run in a block of their own, and find the
elements of the sequence in boxes. -/
theorem forIn {fuel calls : Nat} {p p' : Position} {name : String} {counter element : Ident} {body : Block}
    {b : BoxId} {Q : Flow → Heap → Prop} (inside : InFrame cfg s m F u) (site : s.Site m₀ m)
    (found : F.objs.get? name = some b) (isSequence : (u.heap.value b).isSequence)
    (turns : ∀ boxes t, InFrame cfg s m (F.inner .empty) t → u.heap.Grows t.heap →
      t.heap.Supplies (u.heap.value b) boxes →
      Ends (forTurns (evaluators cfg (fuel + 1)) ⟨m₀, calls⟩ counter.name element.name body boxes 0) t
        fun flow t' => (∃ level, InFrame cfg s m (F.inner level) t') ∧ Q flow t'.heap) :
    Ends (evalStmt cfg (fuel + 2) ⟨m₀, calls⟩ (.forIn p (.ident p' name) counter element body)) u
      fun flow t => InFrame cfg s m F t ∧ Q flow t.heap := by
  rw [evalStmt_succ, Eval.stmt]
  refine .located (.after (inside.ident site found fuel calls p') (.after (run_read b u) ?_))
  rw [isSequence]
  refine inside.block site fun t inside same => ?_
  have knows : t.heap.Knows (u.heap.value b) := same ▸ inside.sound.value b
  have elements := inside.onHeap (HeapM.adds_elements inside.sound knows isSequence) trivial
  rw [onHeap_bind] at elements
  rw [← bind_assoc]
  refine .bind elements fun boxes t' ⟨inside', grows, supplies⟩ => ?_
  exact turns boxes t' inside' (same ▸ grows) supplies

theorem returnValue {fuel : Nat} {ctx : Context} {p : Position} {e : Expr} {v : Value}
    (evaluates : ComesTo cfg s m F fuel ctx e u v) :
    Ends (evalStmt cfg (fuel + 1) ctx (.returnValue p (some e))) u fun flow t => ∃ b,
      flow = .returnValue (some b) ∧ InFrame cfg s m F t ∧ u.heap.Grows t.heap ∧ t.heap.value b = v := by
  rw [evalStmt_succ, Eval.stmt]
  exact .located (.bind evaluates fun b t here => .pure ⟨b, rfl, here⟩)

/-! ## Calls -/

/-- The names bound by the declarations that begin a call. -/
def begun (names : OrderedMap String BoxId) : Frame BoxId StructId := ⟨⟨names, []⟩, .empty⟩

theorem get?_begun (names : OrderedMap String BoxId) (name : String) :
    (begun names).objs.get? name = names.get? name := by
  change Levels.findIn name [names] = _
  rw [Levels.findIn]
  cases names.get? name <;> rfl

/-- Parameters are bound to deep copies of the arguments, if these can be copied. -/
theorem declareArgs {h : Heap} {names : OrderedMap String BoxId} {params : List String} {args : List BoxId}
    (inside : InFrame cfg s m (begun names) u) (site : s.Site m₀ m) (sound : h.Sound) (grows : h.Grows u.heap)
    (there : ∀ b ∈ args, h.Has (.box b)) (sizes : args.length = params.length) :
    ∃ result t, Eval.declareArgs cfg m₀ params args u = (result, t) ∧
      (result = .ok () → ∃ copies, List.Forall₂ (h.CopiedBox t.heap cfg.dataLimit) args copies ∧
        InFrame cfg s m (begun (names.insertMany (params.zip copies))) t ∧ u.heap.Grows t.heap) ∧
      ((∀ b ∈ args, (h.canonical cfg.dataLimit (h.value b)).isSome) → result = .ok ()) := by
  induction args generalizing params names u with
  | nil =>
    obtain rfl : params = [] := List.eq_nil_of_length_eq_zero sizes.symm
    exact ⟨.ok (), u, rfl, fun _ => ⟨[], .nil, inside, .refl u.heap⟩, fun _ => rfl⟩
  | cons b args ih =>
    obtain ⟨name, params, rfl⟩ := List.exists_cons_of_length_eq_add_one sizes.symm
    obtain ⟨first, others⟩ := List.forall_mem_cons.1 there
    obtain ⟨cloned, h', run, grows', sound', copied, answers⟩ :=
      HeapM.adds_clone_later cfg.dataLimit sound first grows inside.sound
    have cloning : Eval.onHeap (HeapM.clone cfg.dataLimit b) u = (cloned, u.withHeap h') := by
      rw [onHeap_apply, run]
    have whole : Eval.declareArgs cfg m₀ (name :: params) (b :: args) u =
        (Eval.onHeap (HeapM.clone cfg.dataLimit b) >>= fun c => declareObj m₀ name c >>= fun _ =>
          Eval.declareArgs cfg m₀ params args) u := congrFun (bind_assoc _ _ _) u
    cases cloned with
    | error stop =>
      refine ⟨.error stop, u.withHeap h', whole.trans (bind_error cloning), nofun, fun fits => ?_⟩
      obtain ⟨c, answered⟩ := answers (fits b List.mem_cons_self)
      cases answered
    | ok c =>
      have inside' : InFrame cfg s m (begun names) (u.withHeap h') := { inside with sound := sound' }
      obtain ⟨⟨⟩, v, declared, inside'', same⟩ := inside'.declare site name c
      have grows'' : u.heap.Grows v.heap := same ▸ grows'
      obtain ⟨result, t, rest, completes, fits⟩ :=
        ih inside'' (grows.trans grows'') others (Nat.succ.inj sizes)
      refine ⟨result, t, whole.trans ((bind_ok cloning).trans ((bind_ok declared).trans rest)),
        fun ended => ?_, fun all => fits fun b' member => all b' (List.mem_cons_of_mem b member)⟩
      obtain ⟨copies, each, last, later⟩ := completes ended
      have copied' : h.CopiedBox v.heap cfg.dataLimit b c := same ▸ copied c rfl
      exact ⟨c :: copies, .cons (copied'.grown later) each, last, grows''.trans later⟩

end InFrame

/-- What a call leaves behind when it has ended: new boxes and containers, and lines of tracing.  No name has
changed. -/
structure Leaves (cfg : Config) (s t : State) : Prop where
  heap : s.heap.Grows t.heap
  registry : t.registry = s.registry
  builtins : t.builtins = s.builtins
  output : OnlyTraced cfg 3 s.output t.output

namespace Leaves

variable {cfg : Config} {s t u : State}

theorem refl (cfg : Config) (s : State) : Leaves cfg s s := ⟨.refl _, rfl, rfl, .refl cfg 3 s.output⟩

theorem trans (first : Leaves cfg s t) (second : Leaves cfg t u) : Leaves cfg s u where
  heap := first.heap.trans second.heap
  registry := second.registry.trans first.registry
  builtins := second.builtins.trans first.builtins
  output := first.output.trans second.output

end Leaves

namespace Eval

/-- The written forms of boxes are read off, if they have any. -/
theorem run_shown (cfg : Config) {s : State} (args : List BoxId)
    (fits : ∀ b ∈ args, (s.heap.canonical cfg.dataLimit (s.heap.value b)).isSome) :
    ∃ shown, args.mapM (canonical cfg) s = (.ok shown, s) := by
  induction args with
  | nil => exact ⟨[], rfl⟩
  | cons b args ih =>
    obtain ⟨first, others⟩ := List.forall_mem_cons.1 fits
    obtain ⟨text, shown⟩ := Option.isSome_iff_exists.1 first
    obtain ⟨texts, rest⟩ := ih others
    refine ⟨text :: texts, ?_⟩
    rw [List.mapM_cons, bind_ok (run_canonical_some shown), bind_ok rest]
    rfl

/-- A call of a function whose body comes to its end in its frame, returning a value.  The arguments are such
that they can be copied. -/
theorem ends_callFunction {cfg : Config} {s : State} {m : ModuleId} {ev : Evaluators} {f : Function}
    {args : List BoxId} {calls : Nat} {Q : BoxId → Heap → Prop} (sound : s.heap.Sound)
    (site : s.Site f.module m) (sizes : args.length = f.params.length)
    (there : ∀ b ∈ args, s.heap.Has (.box b))
    (fits : ∀ b ∈ args, (s.heap.canonical cfg.dataLimit (s.heap.value b)).isSome)
    (body : ∀ copies u, List.Forall₂ (s.heap.CopiedBox u.heap cfg.dataLimit) args copies →
      InFrame cfg s m (InFrame.begun (.ofList (f.params.zip copies))) u → s.heap.Grows u.heap →
      Ends (runBlock (ev.stmt ⟨f.module, calls⟩) f.body) u fun flow t =>
        (∃ F, InFrame cfg s m F t) ∧ u.heap.Grows t.heap ∧ ∃ b, flow = .returnValue (some b) ∧ Q b t.heap) :
    Ends (callFunction ev cfg (calls + 1) f none args) s fun b t => Leaves cfg s t ∧ Q b t.heap := by
  rw [callFunction_eq ev cfg (calls + 1) sizes]
  obtain ⟨shown, listed⟩ := run_shown cfg args fits
  have called : callText cfg f args s = (.ok _, s) := bind_ok listed
  refine .bind (Ends.trace cfg 3 called) fun _ s₁ ⟨same, quiet⟩ => ?_
  have stands₁ : s₁.Stands f.module m := by
    rw [same]
    exact site.stands
  have entered : InFrame cfg s m (InFrame.begun .empty) (s₁.modifyScope m Scope.pushFunction) := by
    rw [same]
    exact ⟨rfl, rfl, quiet, sound⟩
  have begins : (s₁.modifyScope m Scope.pushFunction).heap = s.heap := by
    rw [same]
    rfl
  obtain ⟨result, u, declared, completes, copied⟩ :=
    entered.declareArgs site sound (begins ▸ .refl s.heap) there sizes
  cases copied fits
  obtain ⟨copies, each, inside, grows⟩ := completes rfl
  obtain ⟨flow, t, run, ⟨F, inside'⟩, grows', b, rfl, here⟩ := body copies u each inside (begins ▸ grows)
  have active : (t.registry.module m).scope.frames ≠ [] := by
    change (t.scopeOf m).frames ≠ []
    rw [inside'.scopeOf site]
    exact List.cons_ne_nil _ _
  have whole : runBody ev cfg calls f none args (s₁.modifyScope m Scope.pushFunction) =
      (.ok (.returnValue (some b)), t) := (bind_ok declared).trans run
  refine .after (Discipline.Agree.run_inFunction stands₁ whole active) (.pure ⟨?_, here⟩)
  refine ⟨(begins ▸ grows).trans grows', ?_, inside'.builtins, inside'.output⟩
  change t.registry.modifyScope m Scope.dropFrame = s.registry
  rw [inside'.registry, Registry.modifyScope_modifyScope]
  exact s.registry.modifyScope_id m

end Eval

end Shiba

import Shiba.Proofs.Blame.Jumps
import Shiba.Proofs.Tracing.Basic

/-!
# Errors that can be accounted for

An error says what went wrong, and where.  Both have to be borne out by the texts that were loaded: the
place lies in one of them, and a jump that went wrong is written in one of them.  What is asked of texts
is up to `Norms`, which say where places may lie and which statements may stand directly in the body of a
function or at the top level of a module.

* `Expr.Within`, `Stmt.Within`: all places at which an error of the code can be reported may be there, and
  all statements of the functions it declares may stand in a body.
* `State.Kept`: modules stay loaded, with the same name and text.
* `Norms.Sourced`: the functions that can be called were written in loaded texts.
* `Norms.Owns`: a stop is accounted for in a state.  An error inside a construct need not have a place yet;
  what leaves a construct has one.
* `Norms.Steps`: from every later state, a step keeps all of this and stops accountably.

The rules of this module are for the steps every construct is made of.
-/

namespace Shiba

/-! ## Places in code -/

/-- Every place at which an error of an expression can be reported has a property. -/
inductive Expr.Within (P : Position → Prop) : Expr → Prop
  | literal {p : Position} {value : Literal} : P p → Within P (.literal p value)
  | list {p : Position} {elements : List Expr} : P p → (∀ e ∈ elements, Within P e) →
    Within P (.list p elements)
  | dict {p : Position} {entries : List (Expr × Expr)} : P p → (∀ e ∈ entries, Within P e.1) →
    (∀ e ∈ entries, Within P e.2) → Within P (.dict p entries)
  | ident {p : Position} {name : String} : P p → Within P (.ident p name)
  | index {p : Position} {target index : Expr} : P p → Within P target → Within P index →
    Within P (.index p target index)
  | slice {p : Position} {target : Expr} {first last : Option Expr} : P p → Within P target →
    (∀ e ∈ first, Within P e) → (∀ e ∈ last, Within P e) → Within P (.slice p target first last)
  | select {p : Position} {target : Expr} {name : String} : P p → Within P target →
    Within P (.select p target name)
  | unary {p : Position} {op : UnaryOp} {operand : Expr} : P p → Within P operand →
    Within P (.unary p op operand)
  | binary {p : Position} {op : BinaryOp} {left right : Expr} : P p → Within P left → Within P right →
    Within P (.binary p op left right)
  | structInit {p brace : Position} {name : String} {fields : List (Ident × Expr)} : P p →
    (∀ f ∈ fields, P f.1.position) → (∀ f ∈ fields, Within P f.2) →
    Within P (.structInit p name brace fields)
  | call {p : Position} {callee : Expr} {args : List Expr} : P p → Within P callee →
    (∀ e ∈ args, Within P e) → Within P (.call p callee args)

theorem Expr.Within.position {P : Position → Prop} {e : Expr} (lies : e.Within P) : P e.position := by
  cases lies <;> assumption

/-- Every place at which an error of a statement can be reported has the property `P`, and every statement
that stands directly in the body of a function the statement declares has the property `B`. -/
inductive Stmt.Within (P : Position → Prop) (B : Stmt → Prop) : Stmt → Prop
  | comment {p : Position} {text : String} : P p → Within P B (.comment p text)
  | importModule {p : Position} {target : String} : P p → Within P B (.importModule p target)
  | expr {e : Expr} : e.Within P → Within P B (.expr e)
  | assign {p : Position} {op : AssignOp} {left right : List Expr} : P p → (∀ e ∈ left, e.Within P) →
    (∀ e ∈ right, e.Within P) → Within P B (.assign p op left right)
  | conditional {p : Position} {branches : List (Expr × Block)} {otherwise : Option Block} : P p →
    (∀ b ∈ branches, b.1.Within P) → (∀ b ∈ branches, ∀ s ∈ b.2, Within P B s) →
    (∀ block ∈ otherwise, ∀ s ∈ block, Within P B s) → Within P B (.conditional p branches otherwise)
  | forIn {p : Position} {target : Expr} {counter element : Ident} {body : Block} : P p →
    target.Within P → (∀ s ∈ body, Within P B s) → Within P B (.forIn p target counter element body)
  | loop {p : Position} {condition : Expr} {body : Block} : P p → condition.Within P →
    (∀ s ∈ body, Within P B s) → Within P B (.loop p condition body)
  | function {d : FunctionDecl} : P d.position → (∀ s ∈ d.body, B s) → (∀ s ∈ d.body, Within P B s) →
    Within P B (.function d)
  | structDecl {p : Position} {name : String} {fields : List String} {methods : List FunctionDecl} :
    P p → (∀ d ∈ methods, ∀ s ∈ d.body, B s) → (∀ d ∈ methods, ∀ s ∈ d.body, Within P B s) →
    Within P B (.structDecl p name fields methods)
  | returnValue {p : Position} {value : Option Expr} : P p → (∀ e ∈ value, e.Within P) →
    Within P B (.returnValue p value)
  | breakLoop {p : Position} : P p → Within P B (.breakLoop p)
  | continueLoop {p : Position} : P p → Within P B (.continueLoop p)

theorem Stmt.Within.position {P : Position → Prop} {B : Stmt → Prop} {s : Stmt} (lies : s.Within P B) :
    P s.position := by
  cases lies with
  | expr lies => exact lies.position
  | _ => assumption

/-! ## Modules that stay loaded -/

/-- The module is there, and it is the one registered under its key. -/
structure State.Loaded (s : State) (m : ModuleId) : Prop where
  there : s.HasModule m
  registered : s.Registered m

/-- What was loaded is still loaded, with its name and text. -/
structure State.Kept (s t : State) : Prop where
  loaded : ∀ m, s.Loaded m → t.Loaded m
  name : ∀ m, s.Loaded m → (t.registry.module m).name = (s.registry.module m).name
  content : ∀ m, s.Loaded m → (t.registry.module m).content = (s.registry.module m).content

namespace State.Kept

variable {s t u : State}

/-- What a later state has to be asked for beyond being one. -/
theorem of_extends (grew : s.Extends t)
    (same : ∀ m, s.Loaded m → (t.registry.module m).name = (s.registry.module m).name ∧
      (t.registry.module m).content = (s.registry.module m).content) : s.Kept t where
  loaded _ loaded := ⟨loaded.there.mono grew, loaded.registered.mono grew loaded.there⟩
  name m loaded := (same m loaded).1
  content m loaded := (same m loaded).2

theorem of_registry (same : t.registry = s.registry) : s.Kept t where
  loaded m loaded := by
    refine ⟨?_, ?_⟩
    · rw [HasModule, same]
      exact loaded.there
    · rw [Registered, Stands, same]
      exact loaded.registered
  name m _ := by rw [same]
  content m _ := by rw [same]

theorem refl (s : State) : s.Kept s := of_registry rfl

theorem trans (first : s.Kept t) (second : t.Kept u) : s.Kept u where
  loaded m loaded := second.loaded m (first.loaded m loaded)
  name m loaded := (second.name m (first.loaded m loaded)).trans (first.name m loaded)
  content m loaded := (second.content m (first.loaded m loaded)).trans (first.content m loaded)

theorem modifyScope (s : State) (m : ModuleId) (f : Scope BoxId StructId → Scope BoxId StructId) :
    s.Kept (s.modifyScope m f) := by
  refine of_extends (s.extends_modifyScope m f) fun m' _ => ?_
  rw [State.modifyScope, Registry.module_modifyScope_scope]
  exact ⟨rfl, rfl⟩

theorem load {M : Module} (fresh : s.registry.find? M.key = none) : s.Kept (s.load M) := by
  refine of_extends (extends_load fresh) fun m loaded => ?_
  rw [State.load, Registry.module_load_of_lt loaded.there]
  exact ⟨rfl, rfl⟩

end State.Kept

theorem State.loaded_load (s : State) (M : Module) : (s.load M).Loaded s.registry.next :=
  ⟨s.hasModule_load M, s.registered_load M⟩

/-! ## Norms -/

/-- A cause that blames a jump. -/
def Cause.isJump : Cause → Bool
  | .jumpOutside _ | .jumpOutsideIn _ _ => true
  | _ => false

/-- What is asked of texts: the places an error in a text may be reported at, the statements that may stand
directly in the body of a function, and those that may stand at the top level of a module. -/
structure Norms where
  Place : String → Position → Prop
  Inner : Stmt → Prop
  Top : Stmt → Prop

namespace Norms

variable (N : Norms)

/-- A place in the text of a module. -/
def PlaceIn (s : State) (m : ModuleId) (p : Position) : Prop :=
  N.Place (s.registry.module m).content p

/-- The function was written in a loaded text. -/
def Admits (s : State) (f : Function) : Prop :=
  ∀ stmt ∈ f.body, s.Loaded f.module ∧ N.Inner stmt ∧ stmt.Within (N.PlaceIn s f.module) N.Inner

/-- All functions that can be called were written in loaded texts. -/
def Sourced (s : State) : Prop := ∀ f, N.Admits s (s.heap.function f)

/-- A location names a loaded module and a place in its text. -/
def Points (s : State) (l : Location) : Prop :=
  ∃ m, s.Loaded m ∧ (s.registry.module m).name = l.module ∧ N.PlaceIn s m l.position

/-- A jump that is blamed is written in a statement that may stand there.  A return is never blamed for
leaving the body of a function. -/
def Warrants : Cause → Prop
  | .jumpOutside jump => ∃ stmt, N.Top stmt ∧ stmt.Yields jump
  | .jumpOutsideIn jump _ => jump ≠ .returnValue ∧ ∃ stmt, N.Inner stmt ∧ stmt.Yields jump
  | _ => True

/-- A stop is accounted for: what an error blames is warranted, and its place, which it has at least when
it is `placed`, is one of a loaded text.  Nothing but a literal that is too long crashes. -/
def Owns (placed : Bool) (s : State) : Stop → Prop
  | .error e => N.Warrants e.cause ∧ (∀ l ∈ e.location, N.Points s l) ∧
    (placed = true → e.location.isSome = true)
  | .crash reason => reason = .literalTooLong
  | _ => True

variable {N} {placed : Bool} {s t w : State}

theorem warrants_of_isJump {cause : Cause} (plain : cause.isJump = false) : N.Warrants cause := by
  cases cause with
  | jumpOutside | jumpOutsideIn => cases plain
  | _ => trivial

theorem PlaceIn.mono {m : ModuleId} {p : Position} (kept : s.Kept t) (loaded : s.Loaded m)
    (here : N.PlaceIn s m p) : N.PlaceIn t m p := by
  rw [PlaceIn, kept.content m loaded]
  exact here

theorem Points.mono {l : Location} (kept : s.Kept t) (points : N.Points s l) : N.Points t l := by
  obtain ⟨m, loaded, named, here⟩ := points
  exact ⟨m, kept.loaded m loaded, (kept.name m loaded).trans named, here.mono kept loaded⟩

theorem Owns.mono {stop : Stop} (kept : s.Kept t) (owned : N.Owns placed s stop) :
    N.Owns placed t stop := by
  cases stop with
  | error e => exact ⟨owned.1, fun l isPlace => (owned.2.1 l isPlace).mono kept, owned.2.2⟩
  | crash reason => exact owned
  | exit | tooDeep | outOfFuel => trivial

theorem Owns.weaken {stop : Stop} (owned : N.Owns placed s stop) : N.Owns false s stop := by
  cases stop with
  | error e => exact ⟨owned.1, owned.2.1, fun impossible => by cases impossible⟩
  | crash reason => exact owned
  | exit | tooDeep | outOfFuel => trivial

/-- An error inside a construct need not have a place yet. -/
theorem owns_ofCause (s : State) {cause : Cause} (warranted : N.Warrants cause) :
    N.Owns false s (.ofCause cause) := by
  refine ⟨warranted, ?_, ?_⟩
  · intro l isPlace
    cases isPlace
  · intro impossible
    cases impossible

/-- Code in a loaded text stays where it was. -/
theorem within_placeIn {stmt : Stmt} {m : ModuleId} (kept : s.Kept t) (loaded : s.Loaded m)
    (lies : stmt.Within (N.PlaceIn s m) N.Inner) : stmt.Within (N.PlaceIn t m) N.Inner := by
  have same : N.PlaceIn t m = N.PlaceIn s m := by
    funext p
    rw [PlaceIn, PlaceIn, kept.content m loaded]
  rw [same]
  exact lies

theorem Admits.mono {f : Function} (kept : s.Kept t) (admitted : N.Admits s f) : N.Admits t f := by
  intro stmt member
  obtain ⟨loaded, inner, lies⟩ := admitted stmt member
  exact ⟨kept.loaded _ loaded, inner, within_placeIn kept loaded lies⟩

theorem Sourced.of_functions (sourced : N.Sourced s) (kept : s.Kept t)
    (same : t.heap.functions = s.heap.functions) : N.Sourced t := by
  intro f
  rw [Heap.function, same]
  exact (sourced f).mono kept

end Norms

/-! ## Steps -/

open Eval

variable {α β : Type}

/-- How a step ended that began in `s`: what was loaded still is, all functions have their texts, and a
stop is accounted for. -/
structure Norms.Ends (N : Norms) (placed : Bool) (s : State) (ended : Except Stop α × State) : Prop where
  kept : s.Kept ended.2
  sourced : N.Sourced ended.2
  owned : ∀ stop, ended.1 = .error stop → N.Owns placed ended.2 stop

/-- A step ends so from every state that comes after `w`. -/
def Norms.Steps (N : Norms) (placed : Bool) (w : State) (a : Eval α) : Prop :=
  ∀ s, w.Kept s → N.Sourced s → N.Ends placed s (a s)

variable {N : Norms} {placed : Bool} {w s t : State} {a : Eval α} {f : α → Eval β}

namespace Norms.Ends

theorem ok {x : α} (sourced : N.Sourced s) : N.Ends placed s (Except.ok x, s) :=
  ⟨.refl s, sourced, fun _ isStop => by cases isStop⟩

theorem error {stop : Stop} (sourced : N.Sourced s) (owned : N.Owns placed s stop) :
    N.Ends placed s ((Except.error stop : Except Stop α), s) :=
  ⟨.refl s, sourced, fun _ isStop => by cases isStop; exact owned⟩

/-- What comes after a step that ended so. -/
theorem after {ended : Except Stop β × State} (kept : s.Kept t) (rest : N.Ends placed t ended) :
    N.Ends placed s ended :=
  ⟨kept.trans rest.kept, rest.sourced, rest.owned⟩

/-- One step after another, both looked at where they begin. -/
theorem bind (first : N.Ends placed s (a s))
    (rest : ∀ x t, a s = (.ok x, t) → s.Kept t → N.Sourced t → N.Ends placed t (f x t)) :
    N.Ends placed s ((a >>= f) s) := by
  rcases run : a s with ⟨stop | x, t⟩
  · rw [run] at first
    rw [bind_error run]
    exact ⟨first.kept, first.sourced, fun _ isStop => by cases isStop; exact first.owned stop rfl⟩
  · rw [run] at first
    rw [bind_ok run]
    exact after first.kept (rest x t run first.kept first.sourced)

end Norms.Ends

namespace Norms.Steps

theorem pure (x : α) : N.Steps placed w (pure x : Eval α) := fun _ _ sourced => .ok sourced

theorem throw {stop : Stop} (owned : ∀ s, N.Owns placed s stop) :
    N.Steps placed w (throw stop : Eval α) :=
  fun s _ sourced => .error sourced (owned s)

theorem blame {cause : Cause} (warranted : N.Warrants cause) : N.Steps false w (raise cause : Eval α) :=
  throw fun s => owns_ofCause s warranted

theorem raise {cause : Cause} (plain : cause.isJump = false) :
    N.Steps false w (raise cause : Eval α) :=
  blame (warrants_of_isJump plain)

theorem weaken (steps : N.Steps placed w a) : N.Steps false w a := by
  intro s kept sourced
  have ends := steps s kept sourced
  exact ⟨ends.kept, ends.sourced, fun stop isStop => (ends.owned stop isStop).weaken⟩

theorem bind_answers {P : α → Prop} (first : N.Steps placed w a) (answers : a.Answers P)
    (rest : ∀ x, P x → N.Steps placed w (f x)) : N.Steps placed w (a >>= f) := by
  intro s kept sourced
  refine (first s kept sourced).bind fun x t run kept' sourced' => ?_
  exact rest x (answers s x t run) t (kept.trans kept') sourced'

theorem bind (first : N.Steps placed w a) (rest : ∀ x, N.Steps placed w (f x)) :
    N.Steps placed w (a >>= f) :=
  first.bind_answers (.anything a) fun x _ => rest x

/-- What follows an error is never run. -/
theorem raise_bind {cause : Cause} {f : α → Eval β} (plain : cause.isJump = false) :
    N.Steps false w (Eval.raise cause >>= f) :=
  (raise plain : N.Steps false w (Eval.raise cause : Eval β))

/-- Reading the state. -/
theorem get_bind {f : State → Eval β} (rest : ∀ s, N.Steps placed w (f s)) :
    N.Steps placed w (get >>= f) :=
  fun s kept sourced => rest s s kept sourced

/-- Reading the state, with all that is known of it. -/
theorem get_bind_from {f : State → Eval β}
    (rest : ∀ s, w.Kept s → N.Sourced s → N.Steps placed s (f s)) :
    N.Steps placed w (get >>= f) :=
  fun s kept sourced => rest s kept sourced s (.refl s) sourced

/-- An error that leaves a construct is given the place of the construct. -/
theorem located {m : ModuleId} {p : Position} (inner : N.Steps false w a) (loaded : w.Loaded m)
    (here : N.PlaceIn w m p) : N.Steps true w (located m p a) := by
  intro s kept sourced
  have ends := inner s kept sourced
  rw [Eval.located]
  rcases run : a s with ⟨stop | x, t⟩
  · rw [run] at ends
    refine ⟨ends.kept, ends.sourced, ?_⟩
    rintro stop' isStop
    cases isStop
    have owned := ends.owned stop rfl
    cases stop with
    | error e =>
      have kept' := kept.trans ends.kept
      refine ⟨owned.1, ?_, fun _ => rfl⟩
      rintro l isPlace
      cases isPlace
      cases known : e.location with
      | none => exact ⟨m, kept'.loaded m loaded, rfl, here.mono kept' loaded⟩
      | some l => exact owned.2.1 l known
    | crash reason => exact owned
    | exit | tooDeep | outOfFuel => trivial
  · rw [run] at ends
    exact ⟨ends.kept, ends.sourced, fun _ isStop => by cases isStop⟩

theorem raiseAt {m : ModuleId} {p : Position} {cause : Cause} (plain : cause.isJump = false)
    (loaded : w.Loaded m) (here : N.PlaceIn w m p) : N.Steps true w (raiseAt m p cause : Eval α) :=
  (raise plain).located loaded here

/-- What follows when a step has ended, one way or the other. -/
theorem observe_bind {k : Except Stop α → Eval β} {P : α → Prop} {placed' : Bool}
    (first : N.Steps placed' w a) (answers : a.Answers P) (done : ∀ x, P x → N.Steps placed w (k (.ok x)))
    (stopped : ∀ stop t, w.Kept t → N.Sourced t → N.Owns placed' t stop →
      N.Ends placed t (k (.error stop) t)) : N.Steps placed w (observe a >>= k) := by
  intro s kept sourced
  have ends := first s kept sourced
  rw [observe_bind_apply]
  rcases run : a s with ⟨stop | x, t⟩
  · rw [run] at ends
    exact .after ends.kept (stopped stop t (kept.trans ends.kept) ends.sourced (ends.owned stop rfl))
  · rw [run] at ends
    exact .after ends.kept (done x (answers s x t run) t (kept.trans ends.kept) ends.sourced)

theorem mapM {f : α → Eval β} {xs : List α} (each : ∀ x ∈ xs, N.Steps placed w (f x)) :
    N.Steps placed w (xs.mapM f) := by
  induction xs with
  | nil => exact pure []
  | cons x xs ih =>
    rw [List.mapM_cons]
    refine (each x List.mem_cons_self).bind fun y => ?_
    exact (ih fun x' member => each x' (List.mem_cons_of_mem x member)).bind fun ys => pure (y :: ys)

theorem forM {f : α → Eval Unit} {xs : List α} (each : ∀ x ∈ xs, N.Steps placed w (f x)) :
    N.Steps placed w (xs.forM f) := by
  induction xs with
  | nil => exact pure ()
  | cons x xs ih =>
    refine (each x List.mem_cons_self).bind fun _ => ?_
    exact ih fun x' member => each x' (List.mem_cons_of_mem x member)

/-! ## Steps of the machine -/

/-- A step that always comes to its end, and touches neither the loaded modules nor the functions. -/
theorem of_quiet (quiet : ∀ s, (∃ x, (a s).1 = .ok x) ∧ s.Kept (a s).2 ∧
    (a s).2.heap.functions = s.heap.functions) : N.Steps placed w a := by
  intro s _ sourced
  obtain ⟨⟨x, isOk⟩, kept, same⟩ := quiet s
  refine ⟨kept, sourced.of_functions kept same, ?_⟩
  intro stop isStop
  rw [isOk] at isStop
  cases isStop

theorem read (b : BoxId) : N.Steps placed w (read b) :=
  of_quiet fun s => ⟨⟨_, rfl⟩, .refl s, rfl⟩

theorem typeName (b : BoxId) : N.Steps placed w (typeName b) :=
  of_quiet fun s => ⟨⟨_, rfl⟩, .refl s, rfl⟩

theorem print (text : String) : N.Steps placed w (print text) :=
  of_quiet fun _ => ⟨⟨_, rfl⟩, .of_registry rfl, rfl⟩

theorem modifyScope (m : ModuleId) (f : Scope BoxId StructId → Scope BoxId StructId) :
    N.Steps placed w (modifyScope m f) :=
  of_quiet fun s => ⟨⟨_, rfl⟩, .modifyScope s m f, rfl⟩

theorem resolve (m : ModuleId) : N.Steps false w (resolve m) := by
  refine get_bind fun s => ?_
  split
  · exact pure _
  · exact raise rfl

theorem inScope (m : ModuleId) (f : Scope BoxId StructId → α) : N.Steps false w (inScope m f) :=
  (resolve m).bind fun _ => get_bind fun _ => pure _

theorem onScope (m : ModuleId) (f : Scope BoxId StructId → Scope BoxId StructId) :
    N.Steps false w (onScope m f) :=
  (resolve m).bind fun _ => modifyScope _ f

theorem popScope (m : ModuleId) (failure : Invariant)
    (f : Scope BoxId StructId → Option (Scope BoxId StructId)) :
    N.Steps false w (popScope m failure f) := by
  refine get_bind fun s => ?_
  split
  · exact modifyScope m _
  · exact raise rfl

/-- What runs inside a scope.  The scope is closed before a stop goes on. -/
theorem within (inner : N.Steps placed w a) (m : ModuleId)
    (opening : Scope BoxId StructId → Scope BoxId StructId) (failure : Invariant)
    (closing : Scope BoxId StructId → Option (Scope BoxId StructId)) :
    N.Steps false w (within (Eval.modifyScope m opening) (Eval.popScope m failure closing) a) := by
  refine (modifyScope m opening).bind fun _ => observe_bind inner (.anything a) (fun x _ => ?_) ?_
  · exact (popScope m failure closing).bind fun _ => pure x
  · intro stop t kept sourced owned
    refine Ends.bind (popScope m failure closing t (.refl t) sourced) ?_
    intro _ u _ kept' sourced'
    exact .error sourced' (owned.weaken.mono kept')

theorem inBlock (inner : N.Steps placed w a) (m : ModuleId) : N.Steps false w (inBlock m a) :=
  (resolve m).bind fun m' => inner.within m' _ _ _

theorem inFunction (inner : N.Steps placed w a) (m : ModuleId) : N.Steps false w (inFunction m a) :=
  (resolve m).bind fun m' => inner.within m' _ _ _

theorem trace {cfg : Config} {level : Int} {text : Eval String} (inner : N.Steps placed w text) :
    N.Steps placed w (trace cfg level text) := by
  rw [Eval.trace]
  split
  · exact inner.bind fun _ => of_quiet fun _ => ⟨⟨_, rfl⟩, .of_registry rfl, rfl⟩
  · exact pure _

end Norms.Steps

end Shiba

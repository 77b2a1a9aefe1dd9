import Shiba.Proofs.Tracing.Basic

/-!
# Parts of a run

A construct hands what lies inside it to evaluators.  Which of its parts a run comes to, and in which
state, is told here without looking at how the construct is evaluated: the outcome may change when the
evaluators answer otherwise for that part in that state, and nowhere else (`Asks`).

What is known of all constructs follows from how they are put together (`Built`): from steps of their
own, which see no evaluators and leave the registry as it is but for some keys, and from parts.

* `Built.stops_or_eq`: evaluators that stop at a part stop the construct there, or make no difference.
* `Built.completes_of_asks`: no construct goes on when a part has been stopped; what ends by itself has
  only parts that do.
* `Built.exists_asked`: a key that gets registered meanwhile was registered by a part.
* `Built.asked_unique`: no other part registers it.
-/

namespace Shiba

open Eval

/-! ## Parts -/

/-- What evaluators are asked for. -/
inductive Part where
  | expr (ctx : Context) (e : Expr)
  | stmt (ctx : Context) (code : Stmt)

namespace Part

/-- A part ends by itself. -/
def Completes (ev : Evaluators) (s : State) : Part → Prop
  | .expr ctx e => ∃ b t, ev.expr ctx e s = (.ok b, t)
  | .stmt ctx code => ∃ flow t, ev.stmt ctx code s = (.ok flow, t)

/-- The state a part leaves. -/
def after (ev : Evaluators) (s : State) : Part → State
  | .expr ctx e => (ev.expr ctx e s).2
  | .stmt ctx code => (ev.stmt ctx code s).2

end Part

namespace Evaluators

/-- Evaluators that answer alike but for one part in one state. -/
structure AlikeButAt (part : Part) (t : State) (ev ev' : Evaluators) : Prop where
  expr : ∀ ctx e s, (Part.expr ctx e, s) ≠ (part, t) → ev'.expr ctx e s = ev.expr ctx e s
  stmt : ∀ ctx code s, (Part.stmt ctx code, s) ≠ (part, t) → ev'.stmt ctx code s = ev.stmt ctx code s

/-- Evaluators that answer what others answer, and perhaps more. -/
structure Below (ev ev' : Evaluators) : Prop where
  expr : ∀ {ctx e s b t}, ev.expr ctx e s = (.ok b, t) → ev'.expr ctx e s = (.ok b, t)
  stmt : ∀ {ctx code s flow t}, ev.stmt ctx code s = (.ok flow, t) →
    ev'.stmt ctx code s = (.ok flow, t)

open Classical in
/-- Evaluators that stop at one part in one state, with the given lines written. -/
noncomputable def stopAt (ev : Evaluators) (part : Part) (t : State) (lines : Array Line) :
    Evaluators where
  expr ctx e s :=
    if (Part.expr ctx e, s) = (part, t) then (.error .tooDeep, { s with output := lines })
    else ev.expr ctx e s
  stmt ctx code s :=
    if (Part.stmt ctx code, s) = (part, t) then (.error .tooDeep, { s with output := lines })
    else ev.stmt ctx code s

/-- A key that is registered stays registered through every part. -/
def Keeps (ev : Evaluators) (key : String) : Prop :=
  ∀ part s, s.registry.find? key ≠ none → (Part.after ev s part).registry.find? key ≠ none

theorem alikeButAt_stopAt (ev : Evaluators) (part : Part) (t : State) (lines : Array Line) :
    ev.AlikeButAt part t (ev.stopAt part t lines) :=
  ⟨fun _ _ _ other => if_neg other, fun _ _ _ other => if_neg other⟩

/-- Evaluators that are changed where they stopped answer all they did. -/
theorem AlikeButAt.below {part : Part} {t : State} {ev ev' : Evaluators} (alike : ev.AlikeButAt part t ev')
    (stopped : ¬ part.Completes ev t) : ev.Below ev' where
  expr {ctx e s b u} run := by
    rw [alike.expr, run]
    rintro ⟨⟩
    exact stopped ⟨b, u, run⟩
  stmt {ctx code s flow u} run := by
    rw [alike.stmt, run]
    rintro ⟨⟩
    exact stopped ⟨flow, u, run⟩

end Evaluators

section

variable {α : Type}

/-- Run from `s`, a construct has a part evaluated in the state `t`. -/
def Asks (construct : Evaluators → Eval α) (ev : Evaluators) (s : State) (part : Part) (t : State) :
    Prop :=
  ∃ ev', ev.AlikeButAt part t ev' ∧ construct ev' s ≠ construct ev s

/-- Run from `s`, a construct stops when its evaluators stop at a part in the state `t`. -/
def StopsAt (construct : Evaluators → Eval α) (ev : Evaluators) (s : State) (part : Part) (t : State) :
    Prop :=
  ∀ lines, ∃ stop u, construct (ev.stopAt part t lines) s = (.error stop, u) ∧ u.output = lines

theorem Asks.congr {construct construct' : Evaluators → Eval α} {ev : Evaluators} {s s' t : State}
    {part : Part} (asks : Asks construct' ev s' part t) (same : ∀ ev, construct ev s = construct' ev s') :
    Asks construct ev s part t := by
  obtain ⟨ev', alike, differ⟩ := asks
  exact ⟨ev', alike, fun equal => differ ((same ev').symm.trans (equal.trans (same ev)))⟩

/-- What sees no evaluators asks for nothing. -/
theorem not_asks_own {a : Eval α} {ev : Evaluators} {s t : State} {part : Part} :
    ¬ Asks (fun _ => a) ev s part t :=
  fun ⟨_, _, differ⟩ => differ rfl

namespace Asks

variable {β : Type} {a : Evaluators → Eval α} {f : Evaluators → α → Eval β} {ev : Evaluators}
  {s t : State} {part : Part}

theorem of_expr {ctx : Context} {e : Expr} (asks : Asks (fun ev => ev.expr ctx e) ev s part t) :
    part = .expr ctx e ∧ t = s := by
  obtain ⟨ev', alike, differ⟩ := asks
  by_contra other
  refine differ (alike.expr ctx e s ?_)
  rintro ⟨⟩
  exact other ⟨rfl, rfl⟩

theorem of_stmt {ctx : Context} {code : Stmt} (asks : Asks (fun ev => ev.stmt ctx code) ev s part t) :
    part = .stmt ctx code ∧ t = s := by
  obtain ⟨ev', alike, differ⟩ := asks
  by_contra other
  refine differ (alike.stmt ctx code s ?_)
  rintro ⟨⟩
  exact other ⟨rfl, rfl⟩

/-- What two steps ask for, the first does, or the second where the first has ended. -/
theorem of_bind (asks : Asks (fun ev => a ev >>= f ev) ev s part t) :
    Asks a ev s part t ∨ ∃ x u, a ev s = (.ok x, u) ∧ Asks (fun ev => f ev x) ev u part t := by
  obtain ⟨ev', alike, differ⟩ := asks
  by_cases same : a ev' s = a ev s
  · rcases run : a ev s with ⟨stop | x, u⟩
    · exact absurd ((bind_error (same.trans run)).trans (bind_error run).symm) differ
    · refine .inr ⟨x, u, rfl, ev', alike, fun same' => differ ?_⟩
      exact (bind_ok (same.trans run)).trans (same'.trans (bind_ok run).symm)
  · exact .inl ⟨ev', alike, same⟩

theorem of_located {m : ModuleId} {p : Position}
    (asks : Asks (fun ev => Eval.located m p (a ev)) ev s part t) : Asks a ev s part t := by
  obtain ⟨ev', alike, differ⟩ := asks
  refine ⟨ev', alike, fun same => differ ?_⟩
  simp only [Eval.located, same]

end Asks

theorem StopsAt.congr {construct construct' : Evaluators → Eval α} {ev : Evaluators} {s s' t : State}
    {part : Part} (stops : StopsAt construct' ev s' part t)
    (same : ∀ ev, construct ev s = construct' ev s') : StopsAt construct ev s part t := by
  intro lines
  obtain ⟨stop, u, run, written⟩ := stops lines
  exact ⟨stop, u, (same _).trans run, written⟩

theorem StopsAt.asks {construct : Evaluators → Eval α} {ev : Evaluators} {s t : State} {part : Part}
    (stops : StopsAt construct ev s part t) : Asks construct ev s part t := by
  -- stopped with one line more than there would be, the construct ends otherwise
  obtain ⟨stop, u, run, lines⟩ := stops ((construct ev s).2.output.push (.program ""))
  refine ⟨_, ev.alikeButAt_stopAt part t ((construct ev s).2.output.push (.program "")), ?_⟩
  intro same
  rw [← same, run] at lines
  have size := congrArg Array.size lines
  rw [Array.size_push] at size
  exact absurd size (Nat.ne_of_lt (Nat.lt_succ_self _))

end

/-! ## Constructs -/

/-- A construct is put together from steps of its own, which register modules under the given keys at
most and take none from the registry, and from parts. -/
inductive Built (keys : List String) : {α : Type} → (Evaluators → Eval α) → Prop
  | own {α : Type} {a : Eval α} :
    (∀ s, ∀ key ∉ keys, (a s).2.registry.find? key = s.registry.find? key) →
    (∀ s key, s.registry.find? key ≠ none → (a s).2.registry.find? key ≠ none) → Built keys fun _ => a
  | expr (ctx : Context) (e : Expr) : Built keys fun ev => ev.expr ctx e
  | stmt (ctx : Context) (code : Stmt) : Built keys fun ev => ev.stmt ctx code
  | bind {α β : Type} {a : Evaluators → Eval α} {f : Evaluators → α → Eval β} :
    Built keys a → (∀ x, Built keys fun ev => f ev x) → Built keys fun ev => a ev >>= f ev
  | located {α : Type} {a : Evaluators → Eval α} (m : ModuleId) (p : Position) :
    Built keys a → Built keys fun ev => Eval.located m p (a ev)
  | within {α : Type} {a : Evaluators → Eval α} (m : ModuleId)
    (opening : Scope BoxId StructId → Scope BoxId StructId) (failure : Invariant)
    (closing : Scope BoxId StructId → Option (Scope BoxId StructId)) : Built keys a →
    Built keys fun ev => Eval.within (modifyScope m opening) (popScope m failure closing) (a ev)

section

variable {α : Type} {a : Eval α} {s t : State} {m : ModuleId} {p : Position} {x : α} {stop : Stop}
  {opening : Scope BoxId StructId → Scope BoxId StructId} {failure : Invariant}
  {closing : Scope BoxId StructId → Option (Scope BoxId StructId)}

theorem located_ok (run : a s = (.ok x, t)) : located m p a s = (.ok x, t) := by
  rw [located, run]

theorem located_error (run : a s = (.error stop, t)) :
    located m p a s = (.error (stop.locate ⟨(t.registry.module m).name, p⟩), t) := by
  rw [located, run]

theorem located_state (m : ModuleId) (p : Position) (a : Eval α) (s : State) :
    (located m p a s).2 = (a s).2 := by
  rcases run : a s with ⟨stop | x, u⟩
  · rw [located_error run]
  · rw [located_ok run]

theorem located_congr {a b : Eval α} (same : a s = b t) : located m p a s = located m p b t := by
  rw [located, located, same]

theorem within_apply (a : Eval α) (s : State) :
    within (modifyScope m opening) (popScope m failure closing) a s =
      (popScope m failure closing >>= fun _ => MonadExcept.ofExcept (a (s.modifyScope m opening)).1)
        (a (s.modifyScope m opening)).2 := by
  have opened : modifyScope m opening s = (.ok (), s.modifyScope m opening) := rfl
  rw [within, bind_ok opened, observe_bind_apply]

theorem within_congr {a b : Eval α} (same : a (s.modifyScope m opening) = b (s.modifyScope m opening)) :
    within (modifyScope m opening) (popScope m failure closing) a s =
      within (modifyScope m opening) (popScope m failure closing) b s := by
  rw [within_apply, within_apply, same]

/-- What runs inside a scope decides how it ends, unless the machine fails since there is nothing to close
behind it. -/
theorem within_ends (a : Eval α) (s : State) (m : ModuleId)
    (opening : Scope BoxId StructId → Scope BoxId StructId) (failure : Invariant)
    (closing : Scope BoxId StructId → Option (Scope BoxId StructId)) :
    let inner := a (s.modifyScope m opening)
    let outer := within (modifyScope m opening) (popScope m failure closing) a s
    (outer.1 = inner.1 ∨ ∃ stop, outer.1 = .error stop ∧ stop.Internal) ∧
      outer.2.output = inner.2.output ∧ outer.2.registry.keys = inner.2.registry.keys := by
  dsimp only
  rw [within_apply, popScope, bind_assoc, bind_ok (run_get _)]
  cases closing ((a (s.modifyScope m opening)).2.registry.module m).scope with
  | none => exact ⟨.inr ⟨_, rfl, failure, rfl⟩, rfl, rfl⟩
  | some scope => cases (a (s.modifyScope m opening)).1 <;> exact ⟨.inl rfl, rfl, rfl⟩

theorem within_find? (m : ModuleId) (opening : Scope BoxId StructId → Scope BoxId StructId)
    (failure : Invariant) (closing : Scope BoxId StructId → Option (Scope BoxId StructId)) (a : Eval α)
    (s : State) (key : String) :
    (within (modifyScope m opening) (popScope m failure closing) a s).2.registry.find? key =
      (a (s.modifyScope m opening)).2.registry.find? key := by
  obtain ⟨-, -, same⟩ := within_ends a s m opening failure closing
  rw [Registry.find?, same]
  rfl

/-- What a construct asks for inside a scope, it asks for behind the opening. -/
theorem Asks.of_within {a : Evaluators → Eval α} {ev : Evaluators} {part : Part}
    (asks : Asks (fun ev => within (modifyScope m opening) (popScope m failure closing) (a ev)) ev s part
      t) : Asks a ev (s.modifyScope m opening) part t := by
  obtain ⟨ev', alike, differ⟩ := asks
  exact ⟨ev', alike, fun same => differ (within_congr same)⟩

end

namespace StopsAt

variable {α β : Type} {a : Evaluators → Eval α} {f : Evaluators → α → Eval β} {ev : Evaluators}
  {s t u : State} {part : Part} {x : α}

theorem bind (stops : StopsAt a ev s part t) : StopsAt (fun ev => a ev >>= f ev) ev s part t := by
  intro lines
  obtain ⟨stop, u, run, written⟩ := stops lines
  exact ⟨stop, u, bind_error run, written⟩

theorem bind_rest (first : ∀ lines, a (ev.stopAt part t lines) s = (.ok x, u))
    (stops : StopsAt (fun ev => f ev x) ev u part t) :
    StopsAt (fun ev => a ev >>= f ev) ev s part t := by
  intro lines
  obtain ⟨stop, v, run, written⟩ := stops lines
  exact ⟨stop, v, (bind_ok (first lines)).trans run, written⟩

theorem located (stops : StopsAt a ev s part t) (m : ModuleId) (p : Position) :
    StopsAt (fun ev => Eval.located m p (a ev)) ev s part t := by
  intro lines
  obtain ⟨stop, u, run, written⟩ := stops lines
  exact ⟨_, u, located_error run, written⟩

theorem within {m : ModuleId} {opening : Scope BoxId StructId → Scope BoxId StructId} {failure : Invariant}
    {closing : Scope BoxId StructId → Option (Scope BoxId StructId)}
    (stops : StopsAt a ev (s.modifyScope m opening) part t) :
    StopsAt (fun ev => Eval.within (modifyScope m opening) (popScope m failure closing) (a ev)) ev s part
      t := by
  intro lines
  obtain ⟨stop, u, run, written⟩ := stops lines
  obtain ⟨closed, output, -⟩ := within_ends (a (ev.stopAt part t lines)) s m opening failure closing
  rw [run] at closed output
  dsimp only at closed
  rcases closed with same | ⟨stop', same, -⟩
  · exact ⟨stop, _, Prod.ext same rfl, output.trans written⟩
  · exact ⟨stop', _, Prod.ext same rfl, output.trans written⟩

end StopsAt

namespace Built

variable {keys : List String} {α : Type} {a : Evaluators → Eval α} {ev ev' : Evaluators} {s t u : State}
  {part : Part} {x : α} {key : String}

/-- Evaluators that stop at a part stop the construct there, or make no difference to it. -/
theorem stops_or_eq (built : Built keys a) (ev : Evaluators) (part : Part) (t s : State) :
    (∀ lines, a (ev.stopAt part t lines) s = a ev s) ∨ StopsAt a ev s part t := by
  induction built generalizing s with
  | own => exact .inl fun _ => rfl
  | expr ctx e =>
    by_cases same : (Part.expr ctx e, s) = (part, t)
    · exact .inr fun lines => ⟨_, _, if_pos same, rfl⟩
    · exact .inl fun lines => if_neg same
  | stmt ctx code =>
    by_cases same : (Part.stmt ctx code, s) = (part, t)
    · exact .inr fun lines => ⟨_, _, if_pos same, rfl⟩
    · exact .inl fun lines => if_neg same
  | @bind α β a f _ _ iha ihf =>
    rcases iha s with same | stops
    · rcases run : a ev s with ⟨stop | x, u⟩
      · exact .inl fun lines => (bind_error ((same lines).trans run)).trans (bind_error run).symm
      · refine (ihf x u).imp (fun same' lines => ?_) (.bind_rest fun lines => (same lines).trans run)
        exact (bind_ok ((same lines).trans run)).trans ((same' lines).trans (bind_ok run).symm)
    · exact .inr stops.bind
  | located m p _ ih =>
    refine (ih s).imp (fun same lines => ?_) (·.located m p)
    simp only [Eval.located, same lines]
  | within m opening failure closing _ ih =>
    refine (ih (s.modifyScope m opening)).imp (fun same lines => ?_) (·.within)
    exact within_congr (same lines)

/-- A construct that ends by itself ends so with all evaluators that answer what its own did. -/
theorem mono (built : Built keys a) (below : ev.Below ev') (ends : a ev s = (.ok x, u)) :
    a ev' s = (.ok x, u) := by
  induction built generalizing s u with
  | own => exact ends
  | expr ctx e => exact below.expr ends
  | stmt ctx code => exact below.stmt ends
  | @bind α β a f _ _ iha ihf =>
    rcases run : a ev s with ⟨stop | y, t⟩
    · cases (bind_error run).symm.trans ends
    · exact (bind_ok (iha run)).trans (ihf y ((bind_ok run).symm.trans ends))
  | @located α a m p _ ih =>
    rcases run : a ev s with ⟨stop | y, t⟩
    · cases (located_error run).symm.trans ends
    · cases (located_ok run).symm.trans ends
      exact located_ok (ih run)
  | @within α a m opening failure closing _ ih =>
    rcases run : a ev (s.modifyScope m opening) with ⟨stop | y, t⟩
    · obtain ⟨closed, -, -⟩ := within_ends (a ev) s m opening failure closing
      dsimp only at ends
      rw [run, ends] at closed
      rcases closed with stopped | ⟨_, stopped, -⟩ <;> cases stopped
    · exact (within_congr ((ih run).trans run.symm)).trans ends

/-- No construct goes on when a part has been stopped. -/
theorem completes_of_asks (built : Built keys a) (ends : a ev s = (.ok x, u))
    (asks : Asks a ev s part t) : part.Completes ev t := by
  by_contra stopped
  obtain ⟨ev', alike, differ⟩ := asks
  exact differ ((built.mono (alike.below stopped) ends).trans ends.symm)

/-- A key that a construct does not register itself, and that is registered when it has ended, was
registered by one of its parts. -/
theorem exists_asked (built : Built keys a) (foreign : key ∉ keys) (fresh : s.registry.find? key = none)
    (registered : (a ev s).2.registry.find? key ≠ none) :
    ∃ part t, StopsAt a ev s part t ∧ t.registry.find? key = none ∧
      (part.after ev t).registry.find? key ≠ none := by
  induction built generalizing s with
  | own quiet _ =>
    rw [quiet s key foreign] at registered
    exact absurd fresh registered
  | expr ctx e => exact ⟨.expr ctx e, s, fun lines => ⟨_, _, if_pos rfl, rfl⟩, fresh, registered⟩
  | stmt ctx code => exact ⟨.stmt ctx code, s, fun lines => ⟨_, _, if_pos rfl, rfl⟩, fresh, registered⟩
  | @bind α β a f builta _ iha ihf =>
    by_cases already : (a ev s).2.registry.find? key = none
    · rcases run : a ev s with ⟨stop | x, u⟩
      · rw [run] at already
        dsimp only at registered
        rw [bind_error run] at registered
        exact absurd already registered
      · rw [run] at already
        dsimp only at registered
        rw [bind_ok run] at registered
        obtain ⟨part, t, stops, before, behind⟩ := ihf x already registered
        -- the first step may have come to the same part in the same state
        refine ⟨part, t, ?_, before, behind⟩
        rcases builta.stops_or_eq ev part t s with same | stops'
        · exact stops.bind_rest fun lines => (same lines).trans run
        · exact stops'.bind
    · obtain ⟨part, t, stops, before, behind⟩ := iha fresh already
      exact ⟨part, t, stops.bind, before, behind⟩
  | @located α a m p _ ih =>
    dsimp only at registered
    rw [located_state] at registered
    obtain ⟨part, t, stops, before, behind⟩ := ih fresh registered
    exact ⟨part, t, stops.located m p, before, behind⟩
  | @within α a m opening failure closing _ ih =>
    dsimp only at registered
    rw [within_find?] at registered
    obtain ⟨part, t, stops, before, behind⟩ := ih (s := s.modifyScope m opening) fresh registered
    exact ⟨part, t, stops.within, before, behind⟩

/-! ### Keys stay registered -/

variable (keep : ev.Keeps key)
include keep

/-- A construct keeps a key registered when its parts do. -/
theorem keeps (built : Built keys a) (registered : s.registry.find? key ≠ none) :
    (a ev s).2.registry.find? key ≠ none := by
  induction built generalizing s with
  | own _ kept => exact kept s key registered
  | expr ctx e => exact keep (.expr ctx e) s registered
  | stmt ctx code => exact keep (.stmt ctx code) s registered
  | @bind α β a f _ _ iha ihf =>
    have there := iha registered
    dsimp only
    rcases run : a ev s with ⟨stop | x, u⟩ <;> rw [run] at there
    · rw [bind_error run]
      exact there
    · rw [bind_ok run]
      exact ihf x there
  | located m p _ ih =>
    dsimp only
    rw [located_state]
    exact ih registered
  | within m opening failure closing _ ih =>
    dsimp only
    rw [within_find?]
    exact ih (s := s.modifyScope m opening) registered

/-- A key that is registered before a construct is registered where it comes to its parts. -/
theorem registered_asked (built : Built keys a) (registered : s.registry.find? key ≠ none)
    (asks : Asks a ev s part t) : t.registry.find? key ≠ none := by
  induction built generalizing s with
  | own => exact absurd asks not_asks_own
  | expr ctx e =>
    rw [asks.of_expr.2]
    exact registered
  | stmt ctx code =>
    rw [asks.of_stmt.2]
    exact registered
  | @bind α β a f builta _ iha ihf =>
    obtain first | ⟨x, u, run, rest⟩ := asks.of_bind
    · exact iha registered first
    · have there := builta.keeps keep registered
      rw [run] at there
      exact ihf x there rest
  | located m p _ ih => exact ih registered asks.of_located
  | within m opening failure closing _ ih =>
    exact ih (s := s.modifyScope m opening) registered asks.of_within

/-- What a part has registered is registered when the construct has ended. -/
theorem registered_after (built : Built keys a) (asks : Asks a ev s part t)
    (registered : (part.after ev t).registry.find? key ≠ none) : (a ev s).2.registry.find? key ≠ none := by
  induction built generalizing s with
  | own => exact absurd asks not_asks_own
  | expr ctx e =>
    obtain ⟨rfl, rfl⟩ := asks.of_expr
    exact registered
  | stmt ctx code =>
    obtain ⟨rfl, rfl⟩ := asks.of_stmt
    exact registered
  | @bind α β a f _ builtf iha ihf =>
    dsimp only
    obtain first | ⟨x, u, run, rest⟩ := asks.of_bind
    · have there := iha first
      rcases run : a ev s with ⟨stop | x, u⟩ <;> rw [run] at there
      · rw [bind_error run]
        exact there
      · rw [bind_ok run]
        exact (builtf x).keeps keep there
    · rw [bind_ok run]
      exact ihf x rest
  | located m p _ ih =>
    dsimp only
    rw [located_state]
    exact ih asks.of_located
  | within m opening failure closing _ ih =>
    dsimp only
    rw [within_find?]
    exact ih asks.of_within

/-- A key is registered by one part of a construct at most. -/
theorem asked_unique (built : Built keys a) {part' : Part} {t' : State} (asks : Asks a ev s part t)
    (fresh : t.registry.find? key = none) (registered : (part.after ev t).registry.find? key ≠ none)
    (asks' : Asks a ev s part' t') (fresh' : t'.registry.find? key = none)
    (registered' : (part'.after ev t').registry.find? key ≠ none) : part = part' ∧ t = t' := by
  induction built generalizing s with
  | own => exact absurd asks not_asks_own
  | expr ctx e =>
    obtain ⟨rfl, rfl⟩ := asks.of_expr
    obtain ⟨rfl, rfl⟩ := asks'.of_expr
    exact ⟨rfl, rfl⟩
  | stmt ctx code =>
    obtain ⟨rfl, rfl⟩ := asks.of_stmt
    obtain ⟨rfl, rfl⟩ := asks'.of_stmt
    exact ⟨rfl, rfl⟩
  | @bind α β a f builta builtf iha ihf =>
    -- behind a first step that registers the key, no part finds it fresh
    have apart : ∀ {p v p' v' x u}, a ev s = (.ok x, u) → Asks a ev s p v →
        (p.after ev v).registry.find? key ≠ none → Asks (fun ev => f ev x) ev u p' v' →
        v'.registry.find? key ≠ none := by
      intro p v p' v' x u run first there rest
      have behind := builta.registered_after keep first there
      rw [run] at behind
      exact (builtf x).registered_asked keep behind rest
    obtain first | ⟨x, u, run, rest⟩ := asks.of_bind <;>
      obtain first' | ⟨x', u', run', rest'⟩ := asks'.of_bind
    · exact iha first first'
    · exact absurd fresh' (apart run' first registered rest')
    · exact absurd fresh (apart run first' registered' rest)
    · cases run.symm.trans run'
      exact ihf x rest rest'
  | located m p _ ih => exact ih asks.of_located asks'.of_located
  | within m opening failure closing _ ih => exact ih asks.of_within asks'.of_within

end Built

end Shiba

import Shiba.Proofs.Lockstep.Rules

/-!
# A traced run beside a silent one

Tracing writes lines of its own, and from level 3 on it writes values into them.  Writing a value can
fail: a value nested too deep, as every cyclic value is, has no written form.  So a traced run is not
quite the silent run with more lines.  It ends as the silent one does, or it is stopped by the line it
could not write.

* `State.untraced` leaves the lines of tracing out of a state, and `Config.silent` does not trace.
* `Beside` relates a traced step, from one state, to the silent step from that state without the lines
  of tracing; `Alongside` says so of all states.  Nothing is asked of the states, so what follows a step
  needs no invariant.

The rules of this module are for the steps every construct is made of.  A step that does not trace is
compared with itself (`Alongside.of_blind`); a step that looks at how another one ended, as the closing
of a block does, has the rule `Beside.observe_bind`.
-/

namespace Shiba

/-- Whether a line was written by the program. -/
def Line.isProgram : Line → Bool
  | .program _ => true
  | .trace _ => false

/-- A state without the lines of tracing. -/
def State.untraced (s : State) : State := { s with output := s.output.filter Line.isProgram }

/-- A configuration in which nothing is traced. -/
def Config.silent (cfg : Config) : Config := { cfg with debugLevel := 0 }

@[simp] theorem State.untraced_registry (s : State) : s.untraced.registry = s.registry := rfl

@[simp] theorem State.untraced_untraced (s : State) : s.untraced.untraced = s.untraced := by
  simp [untraced]

/-- A state with one more line. -/
def State.line (s : State) (l : Line) : State := { s with output := s.output.push l }

theorem State.untraced_program (s : State) (text : String) :
    (s.line (.program text)).untraced = s.untraced.line (.program text) := by
  simp only [line, untraced, Array.filter_push, Line.isProgram, if_true]

theorem State.untraced_trace (s : State) (text : String) :
    (s.line (.trace text)).untraced = s.untraced := by
  simp only [line, untraced, Array.filter_push, Line.isProgram, Bool.false_eq_true, if_false]

/-- What was written in one state are the first lines of another one. -/
def State.Leads (s t : State) : Prop := s.output.toList <+: t.output.toList

theorem State.Leads.refl (s : State) : s.Leads s := List.prefix_rfl

theorem State.Leads.trans {s t u : State} (first : s.Leads t) (second : t.Leads u) : s.Leads u :=
  List.IsPrefix.trans first second

theorem State.leads_line (s : State) (l : Line) : s.Leads (s.line l) := by
  rw [Leads, line, Array.toList_push]
  exact List.prefix_append _ _

theorem Eval.run_print (text : String) (s : State) : print text s = (.ok (), s.line (.program text)) :=
  rfl

/-- Values are traced, and one of those in a heap is nested too deep to be written. -/
def Config.Overflows (cfg : Config) (h : Heap) : Prop :=
  3 ≤ cfg.debugLevel ∧ ∃ b, h.canonical cfg.dataLimit (h.value b) = none

/-- The stops a line of tracing can bring about inside a statement: data nested too deep, or a failure
of the machine when a scope is closed behind it. -/
def Stop.OfTracing (stop : Stop) : Prop := stop = .tooDeep ∨ stop.Internal

theorem Stop.OfTracing.locate {stop : Stop} (possible : stop.OfTracing) (l : Location) :
    (stop.locate l).OfTracing := by
  rcases possible with rfl | internal
  · exact .inl rfl
  · exact .inr ((stop.internal_locate l).2 internal)

open Eval

variable {α β : Type}

/-- How a step ended that a line of tracing has stopped, in one of the ways `P`. -/
def Config.StoppedIn (cfg : Config) (P : Stop → Prop) (ended : Except Stop α × State) : Prop :=
  (∃ stop, ended.1 = .error stop ∧ P stop) ∧ cfg.Overflows ended.2.heap

/-- A traced step beside the silent one.  The silent one keeps the state free of lines of tracing and
takes no line away.  They end alike but for the lines of tracing, or the traced step was stopped by one
of those, and has written up to there what the silent one writes first. -/
structure Beside (cfg : Config) (P : Stop → Prop) (s : State) (traced silent : Eval α) : Prop where
  untraced : (silent s.untraced).2.untraced = (silent s.untraced).2
  leads : s.untraced.Leads (silent s.untraced).2
  ends : silent s.untraced = ((traced s).1, (traced s).2.untraced) ∨
    cfg.StoppedIn P (traced s) ∧ (traced s).2.untraced.Leads (silent s.untraced).2

/-- A traced step beside the silent one, in whatever state they begin. -/
def Alongside (cfg : Config) (P : Stop → Prop) (traced silent : Eval α) : Prop :=
  ∀ s, Beside cfg P s traced silent

variable {cfg : Config} {P Q : Stop → Prop} {s : State} {a₁ a₂ : Eval α} {f₁ f₂ : α → Eval β}

/-! ## Putting steps together -/

/-- A step that does not trace: it neither sees the lines of tracing nor takes a line away. -/
theorem Alongside.of_blind {a : Eval α} (blind : ∀ s : State, a s.untraced = ((a s).1, (a s).2.untraced))
    (leads : ∀ s : State, s.Leads (a s).2) : Alongside cfg P a a := by
  intro s
  refine ⟨?_, leads s.untraced, .inl (blind s)⟩
  rw [blind, State.untraced_untraced]

theorem observe_bind_apply (a : Eval α) (k : Except Stop α → Eval β) (s : State) :
    (observe a >>= k) s = k (a s).1 (a s).2 :=
  bind_ok rfl

/-- What follows when a step has ended, one way or the other.  When tracing has stopped it, what follows
has to stop as well, and to leave the heap and the lines as they are. -/
theorem Beside.observe_bind {k₁ k₂ : Except Stop α → Eval β} (first : Beside cfg P s a₁ a₂)
    (rest : ∀ result, Alongside cfg Q (k₁ result) (k₂ result))
    (stops : ∀ stop, P stop → ∀ t, (∃ stop', (k₁ (.error stop) t).1 = .error stop' ∧ Q stop') ∧
      (k₁ (.error stop) t).2.heap = t.heap ∧ (k₁ (.error stop) t).2.output = t.output) :
    Beside cfg Q s (observe a₁ >>= k₁) (observe a₂ >>= k₂) := by
  obtain ⟨untraced, leads, ends⟩ := first
  -- the silent run goes on by itself, from a state without lines of tracing
  obtain ⟨untraced', leads', -⟩ := rest (a₂ s.untraced).1 (a₂ s.untraced).2
  rw [untraced] at untraced' leads'
  refine ⟨?_, ?_, ?_⟩
  · rw [observe_bind_apply]
    exact untraced'
  · rw [observe_bind_apply]
    exact leads.trans leads'
  · rw [observe_bind_apply, observe_bind_apply]
    rcases ends with same | ⟨⟨⟨stop, isStop, possible⟩, overflows⟩, written⟩
    · rw [same]
      exact (rest _ _).ends
    · obtain ⟨stopped, sameHeap, sameOutput⟩ := stops stop possible (a₁ s).2
      rw [← isStop] at stopped sameHeap sameOutput
      refine .inr ⟨⟨stopped, ?_⟩, ?_⟩
      · rw [sameHeap]
        exact overflows
      · refine State.Leads.trans ?_ (written.trans leads')
        rw [State.Leads, State.untraced, State.untraced, sameOutput]

/-- One step after another, seen as a step whose end is looked at. -/
theorem bind_eq_observe (a : Eval α) (f : α → Eval β) :
    (a >>= f) = (observe a >>= fun result =>
      match result with
      | .ok x => f x
      | .error stop => throw stop) := by
  funext s
  rw [observe_bind_apply]
  rcases run : a s with ⟨stop | x, t⟩
  · exact bind_error run
  · exact bind_ok run

/-- Giving places to errors, seen as a step whose end is looked at. -/
theorem located_eq_observe (m : ModuleId) (p : Position) (a : Eval α) :
    located m p a = (observe a >>= fun result =>
      match result with
      | .ok x => pure x
      | .error stop => get >>= fun t => throw (stop.locate ⟨(t.registry.module m).name, p⟩)) := by
  funext s
  rw [observe_bind_apply, located]
  rcases a s with ⟨stop | x, t⟩
  · rfl
  · rfl

namespace Alongside

theorem pure (x : α) : Alongside cfg P (pure x) (pure x) := of_blind (fun _ => rfl) fun s => .refl s

theorem throw (stop : Stop) : Alongside cfg P (throw stop : Eval α) (throw stop) :=
  of_blind (fun _ => rfl) fun s => .refl s

theorem raise (cause : Cause) : Alongside cfg P (raise cause : Eval α) (raise cause) := throw _

theorem bind (first : Alongside cfg P a₁ a₂) (rest : ∀ x, Alongside cfg P (f₁ x) (f₂ x)) :
    Alongside cfg P (a₁ >>= f₁) (a₂ >>= f₂) := by
  intro s
  rw [bind_eq_observe a₁, bind_eq_observe a₂]
  apply (first s).observe_bind
  · intro result
    cases result with
    | ok x => exact rest x
    | error stop => exact throw stop
  · intro stop possible t
    exact ⟨⟨stop, rfl, possible⟩, rfl, rfl⟩

/-- Reading the state, but not its lines. -/
theorem get_bind {f₁ f₂ : State → Eval β} (blind : ∀ s, f₂ s.untraced = f₂ s)
    (rest : ∀ s, Alongside cfg P (f₁ s) (f₂ s)) : Alongside cfg P (get >>= f₁) (get >>= f₂) := by
  intro s
  obtain ⟨untraced, leads, ends⟩ := rest s s
  rw [← blind] at untraced leads ends
  exact ⟨untraced, leads, ends⟩

theorem located (inner : Alongside cfg Stop.OfTracing a₁ a₂) (m : ModuleId) (p : Position) :
    Alongside cfg Stop.OfTracing (located m p a₁) (located m p a₂) := by
  intro s
  rw [located_eq_observe, located_eq_observe]
  apply (inner s).observe_bind
  · intro result
    cases result with
    | ok x => exact pure x
    | error stop => exact get_bind (fun _ => rfl) fun t => throw _
  · intro stop possible t
    exact ⟨⟨_, rfl, possible.locate _⟩, rfl, rfl⟩

theorem mapM {f₁ f₂ : α → Eval β} (each : ∀ x, Alongside cfg P (f₁ x) (f₂ x)) (xs : List α) :
    Alongside cfg P (xs.mapM f₁) (xs.mapM f₂) := by
  induction xs with
  | nil => exact pure []
  | cons x xs ih =>
    rw [List.mapM_cons, List.mapM_cons]
    exact (each x).bind fun y => ih.bind fun ys => pure (y :: ys)

theorem forM {f₁ f₂ : α → Eval Unit} (each : ∀ x, Alongside cfg P (f₁ x) (f₂ x)) (xs : List α) :
    Alongside cfg P (xs.forM f₁) (xs.forM f₂) := by
  induction xs with
  | nil => exact pure ()
  | cons x xs ih => exact (each x).bind fun _ => ih

/-! ## Steps of the machine -/

theorem onHeap (act : HeapM α) : Alongside cfg P (onHeap act) (onHeap act) := by
  apply of_blind
  · intro s
    rw [onHeap_apply, onHeap_apply]
    rfl
  · intro s
    rw [onHeap_apply]
    exact .refl s

theorem read (b : BoxId) : Alongside cfg P (read b) (read b) :=
  of_blind (fun _ => rfl) fun s => .refl s

theorem typeName (b : BoxId) : Alongside cfg P (typeName b) (typeName b) :=
  of_blind (fun _ => rfl) fun s => .refl s

theorem print (text : String) : Alongside cfg P (print text) (print text) := by
  apply of_blind
  · intro s
    rw [run_print, run_print, State.untraced_program]
  · intro s
    rw [run_print]
    exact s.leads_line _

theorem modifyScope (m : ModuleId) (f : Scope BoxId StructId → Scope BoxId StructId) :
    Alongside cfg P (modifyScope m f) (modifyScope m f) :=
  of_blind (fun _ => rfl) fun s => .refl s

theorem resolve (m : ModuleId) : Alongside cfg P (resolve m) (resolve m) := by
  refine get_bind (fun _ => rfl) fun s => ?_
  split
  · exact pure _
  · exact raise _

theorem inScope (m : ModuleId) (f : Scope BoxId StructId → α) :
    Alongside cfg P (inScope m f) (inScope m f) :=
  (resolve m).bind fun _ => get_bind (fun _ => rfl) fun _ => pure _

theorem onScope (m : ModuleId) (f : Scope BoxId StructId → Scope BoxId StructId) :
    Alongside cfg P (onScope m f) (onScope m f) :=
  (resolve m).bind fun _ => modifyScope _ f

theorem popScope (m : ModuleId) (failure : Invariant)
    (f : Scope BoxId StructId → Option (Scope BoxId StructId)) :
    Alongside cfg P (popScope m failure f) (popScope m failure f) := by
  refine get_bind (fun _ => rfl) fun s => ?_
  split
  · exact modifyScope m _
  · exact raise _

end Alongside

/-! ## Blocks and calls -/

/-- Closing a scope touches neither the heap nor the lines, and fails only as the machine does. -/
theorem run_popScope (m : ModuleId) (failure : Invariant)
    (f : Scope BoxId StructId → Option (Scope BoxId StructId)) (t : State) :
    ((popScope m failure f t).1 = .ok () ∨
      ∃ stop, (popScope m failure f t).1 = .error stop ∧ stop.Internal) ∧
    (popScope m failure f t).2.heap = t.heap ∧ (popScope m failure f t).2.output = t.output := by
  rw [popScope, bind_ok (run_get t)]
  cases f (t.registry.module m).scope with
  | some scope => exact ⟨.inl rfl, rfl, rfl⟩
  | none => exact ⟨.inr ⟨_, rfl, failure, rfl⟩, rfl, rfl⟩

namespace Alongside

/-- What runs inside a scope.  When tracing has stopped it, the scope is closed before the stop goes on;
should there be nothing to close, the failure takes its place. -/
theorem within (inner : Alongside cfg Stop.OfTracing a₁ a₂) (m : ModuleId)
    (opening : Scope BoxId StructId → Scope BoxId StructId) (failure : Invariant)
    (closing : Scope BoxId StructId → Option (Scope BoxId StructId)) :
    Alongside cfg Stop.OfTracing
      (within (Eval.modifyScope m opening) (Eval.popScope m failure closing) a₁)
      (within (Eval.modifyScope m opening) (Eval.popScope m failure closing) a₂) := by
  refine (modifyScope m opening).bind fun _ s => (inner s).observe_bind ?_ ?_
  · intro result
    refine (popScope m failure closing).bind fun _ => ?_
    cases result with
    | ok x => exact pure x
    | error stop => exact throw stop
  · intro stop possible t
    obtain ⟨closed, sameHeap, sameOutput⟩ := run_popScope m failure closing t
    rcases run : Eval.popScope m failure closing t with ⟨stop' | _, u⟩
    · rw [run] at closed sameHeap sameOutput
      rw [bind_error run]
      refine ⟨⟨stop', rfl, .inr ?_⟩, sameHeap, sameOutput⟩
      rcases closed with done | ⟨_, isStop, internal⟩
      · cases done
      · cases isStop
        exact internal
    · rw [run] at sameHeap sameOutput
      rw [bind_ok run]
      exact ⟨⟨stop, rfl, possible⟩, sameHeap, sameOutput⟩

theorem inBlock (inner : Alongside cfg Stop.OfTracing a₁ a₂) (m : ModuleId) :
    Alongside cfg Stop.OfTracing (inBlock m a₁) (inBlock m a₂) :=
  (resolve m).bind fun m' => inner.within m' _ _ _

theorem inFunction (inner : Alongside cfg Stop.OfTracing a₁ a₂) (m : ModuleId) :
    Alongside cfg Stop.OfTracing (inFunction m a₁) (inFunction m a₂) :=
  (resolve m).bind fun m' => inner.within m' _ _ _

end Alongside

/-! ## Lines of tracing -/

theorem run_canonical_some {b : BoxId} {text : String}
    (written : s.heap.canonical cfg.dataLimit (s.heap.value b) = some text) :
    canonical cfg b s = (.ok text, s) := by
  change onHeap (HeapM.bounded fun h => h.canonical cfg.dataLimit (s.heap.value b)) s = _
  rw [HeapM.bounded, onHeap_get_bind, bind_ok (run_get s), written]
  rfl

theorem run_canonical_none {b : BoxId}
    (unwritten : s.heap.canonical cfg.dataLimit (s.heap.value b) = none) :
    canonical cfg b s = (.error .tooDeep, s) := by
  change onHeap (HeapM.bounded fun h => h.canonical cfg.dataLimit (s.heap.value b)) s = _
  rw [HeapM.bounded, onHeap_get_bind, bind_ok (run_get s), unwritten]
  rfl

/-- A text that is read off the state: it changes nothing, and it fails only when a value that has to be
written is nested too deep. -/
def Shows (cfg : Config) (text : Eval α) : Prop :=
  ∀ s, (∃ x, text s = (.ok x, s)) ∨
    text s = (.error .tooDeep, s) ∧ ∃ b, s.heap.canonical cfg.dataLimit (s.heap.value b) = none

namespace Shows

theorem pure (x : α) : Shows cfg (pure x) := fun _ => .inl ⟨x, rfl⟩

theorem get : Shows cfg get := fun s => .inl ⟨s, rfl⟩

theorem bind {a : Eval α} {f : α → Eval β} (first : Shows cfg a) (rest : ∀ x, Shows cfg (f x)) :
    Shows cfg (a >>= f) := by
  intro s
  rcases first s with ⟨x, run⟩ | ⟨run, overflows⟩
  · rw [bind_ok run]
    exact rest x s
  · rw [bind_error run]
    exact .inr ⟨rfl, overflows⟩

theorem mapM {f : α → Eval β} (each : ∀ x, Shows cfg (f x)) (xs : List α) :
    Shows cfg (xs.mapM f) := by
  induction xs with
  | nil => exact pure []
  | cons x xs ih =>
    rw [List.mapM_cons]
    exact (each x).bind fun y => ih.bind fun ys => pure (y :: ys)

theorem canonical (b : BoxId) : Shows cfg (canonical cfg b) := by
  intro s
  cases written : s.heap.canonical cfg.dataLimit (s.heap.value b) with
  | some text => exact .inl ⟨text, run_canonical_some written⟩
  | none => exact .inr ⟨run_canonical_none written, b, written⟩

end Shows

namespace Alongside

variable {level : Int} {text text' : Eval String}

/-- A line of tracing, which the silent run does not write.  Only from level 3 on can it fail. -/
theorem trace (positive : 0 < level) (shows : Shows cfg text)
    (possible : (∀ s, ∃ x, text s = (.ok x, s)) ∨ 3 ≤ level ∧ P .tooDeep) :
    Alongside cfg P (trace cfg level text) (trace cfg.silent level text') := by
  intro s
  have silent : Eval.trace cfg.silent level text' s.untraced = (.ok (), s.untraced) := by
    have off : ¬ level ≤ cfg.silent.debugLevel := Int.not_le.2 positive
    rw [Eval.trace, if_neg off]
    rfl
  refine ⟨?_, ?_, ?_⟩
  · rw [silent, State.untraced_untraced]
  · rw [silent]
    exact .refl _
  · rw [silent, Eval.trace]
    by_cases on : level ≤ cfg.debugLevel
    · rw [if_pos on]
      rcases shows s with ⟨x, run⟩ | ⟨run, overflows⟩
      · rw [bind_ok run]
        refine .inl ?_
        change _ = (Except.ok (), (s.line (.trace x)).untraced)
        rw [State.untraced_trace]
      · rw [bind_error run]
        rcases possible with total | ⟨high, deep⟩
        · obtain ⟨x, written⟩ := total s
          rw [run] at written
          cases written
        · exact .inr ⟨⟨⟨.tooDeep, rfl, deep⟩, high.trans on, overflows⟩, .refl _⟩
    · rw [if_neg on]
      exact .inl rfl

/-- A line of tracing without values. -/
theorem traceText (positive : 0 < level) (total : ∀ s, ∃ x, text s = (.ok x, s)) :
    Alongside cfg P (Eval.trace cfg level text) (Eval.trace cfg.silent level text') :=
  trace positive (fun s => .inl (total s)) (.inl total)

/-- A line of tracing with values. -/
theorem traceValues (shows : Shows cfg text) :
    Alongside cfg Stop.OfTracing (Eval.trace cfg 3 text) (Eval.trace cfg.silent 3 text') :=
  trace (by decide) shows (.inr ⟨Int.le_refl 3, .inl rfl⟩)

end Alongside

end Shiba

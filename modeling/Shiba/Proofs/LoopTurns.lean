import Shiba.Proofs.SimultaneousAssignment

/-!
# The turns of a loop over a sequence

A loop over a sequence finds its elements once, before its first turn.  The elements of a list are its own
boxes, and no step changes which boxes a list has; the characters of a string are put into new boxes, which
are in hand until the loop ends, so that nothing else can write into them.  So whatever the body does, to the
names of the loop, to the sequence or to its elements, there are as many turns as there were elements, unless
the body leaves the loop or is stopped.

* `Leads`: a run goes on from one state to another.  `Leads.items_eq`: a list keeps its boxes meanwhile.
* `Turns`: the turns of a loop, with the states their bodies start in, and how the loop ends.
* `Supply`: the boxes that are left for the turns to come.  It is what one turn preserves.
* `evalStmt_forIn_turns` is the statement.
-/

namespace Shiba

/-! ## Lists keep their boxes -/

/-- A run goes on from one state to another.  A step is an operation of the machine, a change of a scope, a new
module, or new lines; or an expression or a statement is evaluated as a whole, or a part of one begins. -/
inductive Leads (cfg : Config) (s : State) : State → Prop where
  | here : Leads cfg s s
  | operation {t : State} {op : Operation} : Leads cfg s t → (op.apply t).WellFormed →
    Leads cfg s (op.apply t)
  | scope {t : State} {m : ModuleId} {f : Scope BoxId StructId → Scope BoxId StructId} : Leads cfg s t →
    (t.modifyScope m f).WellFormed → Leads cfg s (t.modifyScope m f)
  | load {t : State} {M : Module} : Leads cfg s t → (t.load M).WellFormed → Leads cfg s (t.load M)
  | output {t : State} (lines : Array Line) : Leads cfg s t → Leads cfg s { t with output := lines }
  | exprEnd {t : State} (fuel : Nat) {ctx : Context} (e : Expr) : Leads cfg s t →
    t.HasModule ctx.module → Leads cfg s (evalExpr cfg fuel ctx e t).2
  | stmtEnd {t : State} (fuel : Nat) {ctx : Context} (stmt : Stmt) : Leads cfg s t →
    t.HasModule ctx.module → Leads cfg s (evalStmt cfg fuel ctx stmt t).2
  | exprPart {t u : State} {fuel : Nat} {ctx : Context} {e : Expr} : Leads cfg s t →
    t.HasModule ctx.module → Visits (fun ev => Eval.expr ev cfg ctx e) (evaluators cfg fuel) t u →
    Leads cfg s u
  | stmtPart {t u : State} {fuel turns : Nat} {ctx : Context} {stmt : Stmt} : Leads cfg s t →
    t.HasModule ctx.module → Visits (fun ev => Eval.stmt ev cfg turns ctx stmt) (evaluators cfg fuel) t u →
    Leads cfg s u

namespace Leads

variable {cfg : Config} {s t : State} {l : ListId}

/-- Lists are added and never replaced. -/
theorem grown (wf : s.WellFormed) (leads : Leads cfg s t) :
    t.WellFormed ∧ s.heap.lists.toList <+: t.heap.lists.toList := by
  have up := Discipline.Upholds.lasting (P := fun t => s.heap.lists.toList <+: t.heap.lists.toList)
    fun grew kept => kept.trans grew.lists
  induction leads with
  | here => exact ⟨wf, List.prefix_rfl⟩
  | @operation t op _ wf' ih => exact ⟨wf', ih.2.trans (op.extends t).lists⟩
  | scope _ wf' ih => exact ⟨wf', ih.2⟩
  | load _ wf' ih => exact ⟨wf', ih.2⟩
  | output lines _ ih => exact ⟨ih.1.write lines, ih.2⟩
  | exprEnd fuel e _ here ih => exact up.exprEnd ih here fuel e
  | stmtEnd fuel stmt _ here ih => exact up.stmtEnd ih here fuel stmt
  | exprPart _ here visited ih => exact up.exprPart ih here visited
  | stmtPart _ here visited ih => exact up.stmtPart ih here visited

/-- A list has the boxes it was made with. -/
theorem items_eq (wf : s.WellFormed) (leads : Leads cfg s t) (there : s.HasList l) :
    t.heap.items l = s.heap.items l :=
  State.getD_of_grown (leads.grown wf).2 there

end Leads

/-! ## Elements of sequences -/

namespace Value

/-- The number of elements of a sequence. -/
def length (h : Heap) : Value → Nat
  | .str text => text.toList.length
  | .list l => (h.items l).size
  | _ => 0

/-- What an element of a sequence holds. -/
def elementAt? (h : Heap) (k : Nat) : Value → Option Value
  | .str text => text.toList[k]?.map fun c => .str (String.singleton c)
  | .list l => (h.items l)[k]?.map h.value
  | _ => none

end Value

/-- A sequence has as many elements in every later heap. -/
theorem Value.length_eq {h h' : Heap} {v : Value} (grows : h.Grows h') (knows : h.Knows v) :
    v.length h' = v.length h := by
  cases v with
  | list l => exact congrArg Array.size (grows.items_eq knows)
  | nil | bool | int | float | str | dict | struct | function | method | builtin | module | structDef => rfl

theorem State.extends_withHeap {s : State} {h : Heap} (grows : s.heap.Grows h) : s.Extends (s.withHeap h) :=
  { Extends.refl s with
    boxes := grows.size_boxes
    lists := grows.lists
    dicts := size_le_of_grown grows.dicts
    instances := grows.instances
    functions := by rw [State.withHeap, grows.functions]
    structs := by rw [State.withHeap, grows.structs] }

/-- The boxes that are left for the turns from the `k`-th one on: those of a list, or boxes in hand with the
characters of a string. -/
inductive Supply (H : Multiset BoxId) (s : State) : Value → Nat → List BoxId → Prop where
  | text {text : String} {k : Nat} {boxes : List BoxId} : (∀ b ∈ boxes, b ∈ H) →
    List.Forall₂ (fun b c => s.heap.value b = .str (String.singleton c)) boxes (text.toList.drop k) →
    Supply H s (.str text) k boxes
  | list {l : ListId} {k : Nat} : s.HasList l → Supply H s (.list l) k ((s.heap.items l).toList.drop k)

namespace Supply

variable {H : Multiset BoxId} {s t : State} {v : Value} {k : Nat} {b : BoxId} {boxes : List BoxId}

theorem elementAt? (supply : Supply H s v k (b :: boxes)) :
    v.elementAt? s.heap k = some (s.heap.value b) := by
  generalize given : b :: boxes = all at supply
  cases supply with
  | @text text _ _ inHand shown =>
    subst given
    cases left : text.toList.drop k with
    | nil =>
      rw [left] at shown
      cases shown
    | cons c rest =>
      rw [left] at shown
      obtain ⟨isChar, -⟩ := List.forall₂_cons.1 shown
      have found : text.toList[k]? = some c := by
        rw [← List.head?_drop, left]
        rfl
      rw [Value.elementAt?, found, isChar]
      rfl
  | @list l _ there =>
    have found : (s.heap.items l)[k]? = some b := by
      rw [← Array.getElem?_toList, ← List.head?_drop, ← given]
      rfl
    rw [Value.elementAt?, found]
    rfl

theorem next (supply : Supply H s v k (b :: boxes)) : Supply H s v (k + 1) boxes := by
  generalize given : b :: boxes = all at supply
  cases supply with
  | @text text _ _ inHand shown =>
    subst given
    refine .text (List.forall_mem_cons.1 inHand).2 ?_
    rw [← List.tail_drop]
    cases left : text.toList.drop k with
    | nil =>
      rw [left] at shown
      cases shown
    | cons c rest =>
      rw [left] at shown
      exact (List.forall₂_cons.1 shown).2
  | @list l _ there =>
    have rest : boxes = (s.heap.items l).toList.drop (k + 1) := by rw [← List.tail_drop, ← given, List.tail_cons]
    rw [rest]
    exact .list there

/-- What is in hand keeps its value, and a list its boxes; so the supply stays. -/
theorem mono (supply : Supply H s v k boxes) (grew : s.Extends t)
    (kept : ∀ b ∈ H, t.heap.value b = s.heap.value b) : Supply H t v k boxes := by
  cases supply with
  | text inHand shown =>
    refine .text inHand (((List.forall₂_and_left _ _).2 ⟨inHand, shown⟩).imp ?_)
    rintro b c ⟨inHand, isChar⟩
    exact (kept b inHand).trans isChar
  | @list l _ there =>
    have same : t.heap.items l = s.heap.items l := State.getD_of_grown grew.lists there
    rw [← same]
    exact .list (Nat.lt_of_lt_of_le there (State.size_le_of_grown grew.lists))

theorem hasBox (supply : Supply H s v k boxes) (wf : s.WellFormed) (held : s.Holding H) :
    ∀ b ∈ boxes, s.HasBox b := by
  cases supply with
  | text inHand => exact fun b member => (held b (inHand b member)).2
  | list there =>
    intro b member
    exact (wf.own_items _ b (Array.mem_toList_iff.1 (List.mem_of_mem_drop member))).2

theorem length_eq (supply : Supply H s v 0 boxes) : boxes.length = v.length s.heap := by
  cases supply with
  | text _ shown => exact shown.length_eq
  | list => simp [Value.length]

end Supply

/-! ## Turns -/

/-- How a loop over a sequence ends, and in which state: all its turns are made, the body breaks it or returns
from the function around it, or the body is stopped by an error or an exit. -/
inductive LoopEnd where
  | exhausted (t : State)
  | broken (t : State)
  | returned (b : Option BoxId) (t : State)
  | stopped (stop : Stop) (t : State)

namespace LoopEnd

/-- What the loop ends with. -/
def result : LoopEnd → Except Stop Flow
  | .exhausted _ | .broken _ => .ok .done
  | .returned b _ => .ok (.returnValue b)
  | .stopped stop _ => .error stop

/-- The state the last turn leaves. -/
def state : LoopEnd → State
  | .exhausted t | .broken t | .returned _ t | .stopped _ t => t

end LoopEnd

/-- The `k`-th turn of a loop in the module `m` over the sequence `v` starts its body in `u`: nothing that was
there in `s` has changed, the counter is bound to a box with `k`, and the element to a new box with what the
`k`-th element of the sequence holds. -/
structure StartsTurn (m : ModuleId) (counter element : String) (v : Value) (k : Nat) (s u : State) : Prop where
  grows : s.heap.Grows u.heap
  output : u.output = s.output
  counter : ∃ c, Eval.getObj? m counter u = (.ok (some c), u) ∧ u.heap.value c = .int (.ofNat k)
  element : ∃ e, Eval.getObj? m element u = (.ok (some e), u) ∧ ¬ s.HasBox e ∧
    v.elementAt? u.heap k = some (u.heap.value e)

section Turns

variable (ev : Evaluators) (ctx : Context) (counter element : String) (body : Block) (v : Value)

/-- The turns of a loop over the sequence `v` from the `k`-th one on, when so many are left: the states in which
the body is started, one after another, and how the loop ends.  A turn that does not leave the loop is followed
by the next one in the state it leaves. -/
inductive Turns : (k left : Nat) → State → List State → LoopEnd → Prop where
  | exhausted {k : Nat} {s : State} : Turns k 0 s [] (.exhausted s)
  | broken {k left : Nat} {s u t : State} : StartsTurn ctx.module counter element v k s u →
    Eval.runBlock (ev.stmt ctx) body u = (.ok .breakLoop, t) → Turns k (left + 1) s [u] (.broken t)
  | returned {k left : Nat} {s u t : State} {b : Option BoxId} :
    StartsTurn ctx.module counter element v k s u →
    Eval.runBlock (ev.stmt ctx) body u = (.ok (.returnValue b), t) →
    Turns k (left + 1) s [u] (.returned b t)
  | stopped {k left : Nat} {s u t : State} {stop : Stop} : StartsTurn ctx.module counter element v k s u →
    Eval.runBlock (ev.stmt ctx) body u = (.error stop, t) → Turns k (left + 1) s [u] (.stopped stop t)
  | next {k left : Nat} {s u t : State} {flow : Flow} {starts : List State} {ending : LoopEnd} :
    StartsTurn ctx.module counter element v k s u →
    Eval.runBlock (ev.stmt ctx) body u = (.ok flow, t) → Eval.afterTurn flow = none →
    Turns (k + 1) left t starts ending → Turns k (left + 1) s (u :: starts) ending

end Turns

namespace Turns

variable {ev : Evaluators} {ctx : Context} {counter element : String} {body : Block} {v : Value} {k left : Nat}
  {s : State} {starts : List State} {ending : LoopEnd}

/-- The body is started once in a turn at most. -/
theorem length_le (turns : Turns ev ctx counter element body v k left s starts ending) :
    starts.length ≤ left := by
  induction turns with
  | exhausted => exact Nat.zero_le _
  | broken | returned | stopped => exact Nat.succ_le_succ (Nat.zero_le _)
  | next _ _ _ _ ih => exact Nat.succ_le_succ ih

/-- A loop whose body never leaves it makes all its turns. -/
theorem length_eq {t : State} (turns : Turns ev ctx counter element body v k left s starts (.exhausted t)) :
    starts.length = left := by
  generalize given : LoopEnd.exhausted t = ending at turns
  induction turns with
  | exhausted => rfl
  | broken | returned | stopped => cases given
  | next _ _ _ _ ih => exact congrArg (· + 1) (ih given)

/-- Every start is that of its turn. -/
theorem startsTurn (turns : Turns ev ctx counter element body v k left s starts ending) {i : Nat} {u : State}
    (start : starts[i]? = some u) : ∃ t, StartsTurn ctx.module counter element v (k + i) t u := by
  induction turns generalizing i with
  | exhausted => cases start
  | broken starts | returned starts | stopped starts =>
    rcases i with _ | i
    · cases start
      exact ⟨_, starts⟩
    · cases start
  | @next k _ _ _ _ _ _ _ starts _ _ _ ih =>
    rcases i with _ | i
    · cases start
      exact ⟨_, starts⟩
    · rw [← Nat.add_assoc, Nat.add_right_comm]
      exact ih start

end Turns

/-! ## One turn -/

namespace Eval

variable {cfg : Config} {fuel calls k : Nat} {m m' : ModuleId} {s : State} {w : Discipline.owned.World}
  {H : Multiset BoxId} {counter element : String} {v : Value} {b : BoxId} {boxes : List BoxId}

/-- A block keeps what is in hand, however it ends; and when it comes to its end, everything is in hand
still. -/
theorem runBlock_keeps_held (ctx : Context) (holds : Discipline.owned.Holds w H s s)
    (opened : Discipline.owned.OpenFor w s ctx.module) (cfg : Config) (fuel : Nat) (block : Block) :
    ∃ result t, runBlock ((evaluators cfg fuel).stmt ctx) block s = (result, t) ∧ s.Extends t ∧
      Discipline.owned.Holds w 0 t t ∧ ∀ flow, result = .ok flow →
        Discipline.owned.Holds w H t t ∧ ∀ b ∈ H, t.heap.value b = s.heap.value b := by
  have begun : (Discipline.retaining s).Holds w H s s := ⟨holds.wf, holds.held, holds.rel, .refl s H⟩
  obtain ⟨result, t, t₂, run, -, later, after⟩ := Discipline.Agree.runBlock
    ((Discipline.retaining s).contract cfg fuel) block begun ⟨opened.module, opened.isOpen⟩
  refine ⟨result, t, run, later, ?_⟩
  cases result with
  | ok flow =>
    obtain ⟨last, -⟩ := after
    cases last.rel.1.1.1
    have whole : Discipline.owned.Holds w H t t := ⟨last.wf, last.held, last.rel.1⟩
    exact ⟨whole.release, fun _ _ => ⟨whole, fun b inHand => last.rel.2.kept b inHand (holds.held b inHand).2⟩⟩
  | error stop =>
    obtain ⟨last, -⟩ := after
    cases last.rel.1.1.1
    exact ⟨⟨last.wf, last.held, last.rel.1⟩, nofun⟩

/-- The beginning of a turn: the counter is declared, and the element as a copy. -/
def beginTurn (m : ModuleId) (counter element : String) (k : Nat) (b : BoxId) : Eval Unit := do
  declareObj m counter (← alloc (.int (.ofNat k)))
  declareObj m element (← copy b)

theorem forTurns_eq_beginTurn (ev : Evaluators) (ctx : Context) (body : Block) :
    forTurns ev ctx counter element body (b :: boxes) k = (do
      beginTurn ctx.module counter element k b
      let flow ← runBlock (ev.stmt ctx) body
      match afterTurn flow with
      | some flow => return flow
      | none => forTurns ev ctx counter element body boxes (k + 1)) := by
  refine Eq.trans ?_ (bind_assoc _ _ _).symm
  refine congrArg (alloc (.int (.ofNat k)) >>= ·) (funext fun number => ?_)
  refine Eq.trans ?_ (bind_assoc _ _ _).symm
  refine congrArg (declareObj ctx.module counter number >>= ·) (funext fun _ => ?_)
  exact (bind_assoc _ _ _).symm

/-- A name is declared to be a new box: the box holds the value, and nothing else has changed. -/
theorem declareNew (holds : Discipline.owned.Holds w H s s) (opened : Discipline.owned.OpenFor w s m)
    (stands : s.Stands m m') (name : String) (valid : s.Valid v) :
    ∃ c u, (alloc v >>= declareObj m name) s = (.ok (), u) ∧ Discipline.owned.Holds w H u u ∧ s.Extends u ∧
      s.heap.Grows u.heap ∧ u.output = s.output ∧ ¬ s.HasBox c ∧ u.HasBox c ∧ u.heap.value c = v ∧
      ∀ x, (u.scopeOf m').getObj? x = if x = name then some c else (s.scopeOf m').getObj? x := by
  let c : BoxId := ⟨s.heap.boxes.size⟩
  let s₁ := (Operation.alloc v).apply s
  let op : Operation := .declareObj m' name c
  have grew : s.Extends s₁ := Operation.extends _ s
  have there : s₁.HasModule m' := (holds.wf.found _ m' stands).1.mono grew
  have isOpen : Discipline.owned.Open w m' := by
    obtain ⟨m'', stands', isOpen⟩ := opened.isOpen
    cases stands.symm.trans stands'
    exact isOpen
  have made : Discipline.owned.Holds w (c ::ₘ H) s₁ s₁ := holds.step ⟨valid, rfl⟩ nofun nofun
  have bound : Discipline.owned.Holds w H (op.apply s₁) (op.apply s₁) := by
    refine made.step ⟨there, rfl⟩ nofun ?_
    rintro m'' ⟨⟩
    exact isOpen
  have allocated : alloc v s = (.ok c, s₁) := rfl
  refine ⟨c, op.apply s₁, (bind_ok allocated).trans (run_onScope (s := s₁) stands), bound,
    grew.trans (op.extends s₁), { Heap.Grows.refl s.heap with boxes := HeapM.prefix_push _ _ }, rfl,
    Nat.lt_irrefl _, (made.held c (Multiset.mem_cons_self c H)).2, ?_, fun x => ?_⟩
  · exact (Heap.value_push s.heap v c).trans (if_pos rfl)
  · rw [← Scope.getObj?_declareObj]
    exact congrArg (·.getObj? x) (State.scopeOf_modifyScope there)

/-- A turn begins in a state of which the same is known. -/
theorem run_beginTurn (holds : Discipline.owned.Holds w H s s) (opened : Discipline.owned.OpenFor w s m)
    (distinct : counter ≠ element) (supply : Supply H s v k (b :: boxes)) :
    ∃ u, beginTurn m counter element k b s = (.ok (), u) ∧ StartsTurn m counter element v k s u ∧
      Discipline.owned.Holds w H u u ∧ s.Extends u ∧ Supply H u v (k + 1) boxes := by
  obtain ⟨m', stands, -⟩ := opened.isOpen
  have there : s.HasBox b := supply.hasBox holds.wf holds.held b List.mem_cons_self
  obtain ⟨c, s₁, counted, holds₁, grew₁, grows₁, lines₁, -, isBox, counts, names₁⟩ :=
    declareNew (v := .int (.ofNat k)) holds opened stands counter trivial
  have stands₁ := stands.mono grew₁ opened.module
  obtain ⟨e, u, copied, holds₂, grew₂, grows₂, lines₂, isNew, -, shows, names₂⟩ :=
    declareNew holds₁ (opened.mono grew₁) stands₁ element (holds₁.wf.valid_value b)
  have stands₂ := stands₁.mono grew₂ (opened.module.mono grew₁)
  have grows := grows₁.trans grows₂
  have grew := grew₁.trans grew₂
  have left : Supply H u v k (b :: boxes) :=
    supply.mono grew fun c inHand => grows.value_eq (holds.held c inHand).2
  have begun : beginTurn m counter element k b s = (.ok (), u) :=
    ((bind_assoc ..).symm.trans (bind_ok counted)).trans copied
  refine ⟨u, begun, ⟨grows, lines₂.trans lines₁, ⟨c, ?_, (grows₂.value_eq isBox).trans counts⟩, e, ?_,
    fun wasBox => isNew (wasBox.mono grew₁), ?_⟩, holds₂, grew, left.next⟩
  · rw [run_getObj? stands₂, names₂, if_neg distinct, names₁, if_pos rfl]
  · rw [run_getObj? stands₂, names₂, if_pos rfl]
  · rw [left.elementAt?, shows, grows.value_eq there, grows₁.value_eq there]

/-- The turns of a loop, by induction on the boxes that are left for them. -/
theorem run_forTurns (cfg : Config) (fuel calls : Nat) (distinct : counter ≠ element) (body : Block) :
    ∀ {s : State} {k : Nat} {boxes : List BoxId}, Discipline.owned.Holds w H s s →
    Discipline.owned.OpenFor w s m → Supply H s v k boxes → ∃ starts ending,
      Turns (evaluators cfg fuel) ⟨m, calls⟩ counter element body v k boxes.length s starts ending ∧
      forTurns (evaluators cfg fuel) ⟨m, calls⟩ counter element body boxes k s =
        (ending.result, ending.state) ∧
      Discipline.owned.Holds w 0 ending.state ending.state ∧ s.Extends ending.state := by
  intro s k boxes
  induction boxes generalizing s k with
  | nil => exact fun holds _ _ => ⟨[], .exhausted s, .exhausted, rfl, holds.release, .refl s⟩
  | cons b boxes ih =>
    intro holds opened supply
    obtain ⟨u, begun, starts, holds₁, grew₁, supply₁⟩ := run_beginTurn holds opened distinct supply
    have opened₁ := opened.mono grew₁
    obtain ⟨result, t, run, grew₂, last, completes⟩ :=
      runBlock_keeps_held ⟨m, calls⟩ holds₁ opened₁ cfg fuel body
    have grew := grew₁.trans grew₂
    rw [forTurns_eq_beginTurn, bind_ok begun]
    cases result with
    | error stop => exact ⟨[u], .stopped stop t, .stopped starts run, bind_error run, last, grew⟩
    | ok flow =>
      rw [bind_ok run]
      obtain ⟨holds₂, kept⟩ := completes flow rfl
      obtain ⟨later, ending, turns, ran, last', grew'⟩ := ih holds₂ (opened₁.mono grew₂) (supply₁.mono grew₂ kept)
      cases flow with
      | breakLoop => exact ⟨[u], .broken t, .broken starts run, rfl, last, grew⟩
      | returnValue b => exact ⟨[u], .returned b t, .returned starts run, rfl, last, grew⟩
      | done | value | continueLoop =>
        exact ⟨u :: later, ending, .next starts run rfl turns, ran, last', grew.trans grew'⟩

/-! ## The whole loop -/

/-- New boxes for the characters of a string are in hand. -/
theorem run_characters (chars : List Char) : ∀ {s : State} {H : Multiset BoxId},
    Discipline.owned.Holds w H s s → ∃ boxes h,
      (chars.mapM fun c => onHeap (HeapM.alloc (.str (String.singleton c)))) s = (.ok boxes, s.withHeap h) ∧
      s.heap.Grows h ∧ Discipline.owned.Holds w ((boxes : Multiset BoxId) + H) (s.withHeap h) (s.withHeap h) ∧
      List.Forall₂ (fun b c => h.value b = .str (String.singleton c)) boxes chars := by
  induction chars with
  | nil => exact fun {s H} holds => ⟨[], s.heap, rfl, .refl s.heap, (zero_add H).symm ▸ holds, .nil⟩
  | cons c chars ih =>
    intro s H holds
    let v : Value := .str (String.singleton c)
    let b : BoxId := ⟨s.heap.boxes.size⟩
    let s₁ := (Operation.alloc v).apply s
    have made : Discipline.owned.Holds w (b ::ₘ H) s₁ s₁ := holds.step ⟨trivial, rfl⟩ nofun nofun
    obtain ⟨boxes, h, run, grows, holds', shown⟩ := ih made
    have first : s.heap.Grows s₁.heap := { Heap.Grows.refl s.heap with boxes := HeapM.prefix_push _ _ }
    have inside : s₁.HasBox b := (made.held b (Multiset.mem_cons_self b H)).2
    have allocated : onHeap (HeapM.alloc v) s = (.ok b, s₁) := rfl
    refine ⟨b :: boxes, h, ?_, first.trans grows, ?_, .cons ?_ shown⟩
    · rw [List.mapM_cons, bind_ok allocated, bind_ok run]
      rfl
    · rwa [← Multiset.cons_coe, Multiset.cons_add, ← Multiset.add_cons]
    · exact (grows.value_eq inside).trans ((Heap.value_push s.heap v b).trans (if_pos rfl))

/-- The elements of a sequence are the supply of the loop. -/
theorem run_elements (holds : Discipline.owned.Holds w 0 s s) (valid : s.Valid v) (isSequence : v.isSequence) :
    ∃ boxes h, (onHeap (Sequence.ofValue v) >>= fun q => onHeap q.elements) s = (.ok boxes, s.withHeap h) ∧
      s.heap.Grows h ∧ ∃ H, Discipline.owned.Holds w H (s.withHeap h) (s.withHeap h) ∧
        Supply H (s.withHeap h) v 0 boxes := by
  cases v with
  | str text =>
    obtain ⟨boxes, h, run, grows, holds', shown⟩ := run_characters text.toList holds
    rw [add_zero] at holds'
    refine ⟨boxes, h, ?_, grows, boxes, holds', .text (fun _ member => member) shown⟩
    rw [← run, ← onHeap_mapM]
    rfl
  | list l =>
    exact ⟨(s.heap.items l).toList, s.heap, rfl, .refl s.heap, 0, holds, .list (k := 0) valid⟩
  | nil | bool | int | float | dict | struct | function | method | builtin | module | structDef =>
    cases isSequence

/-- An error that stops a loop has a place already. -/
theorem placed_of_turns {ctx : Context} {body : Block} {left : Nat} {starts : List State} {ending : LoopEnd}
    (turns : Turns (evaluators cfg fuel) ctx counter element body v k left s starts ending) {stop : Stop}
    (stopped : ending.result = .error stop) (l : Location) : stop.locate l = stop := by
  induction turns with
  | exhausted | broken | returned => cases stopped
  | stopped _ run =>
    cases stopped
    exact Placed.runBlock cfg fuel ctx body run l
  | next _ _ _ _ ih => exact ih stopped

/-- A step whose errors have a place is given no other one. -/
theorem located_of_placed {α : Type} {a : Eval α} {t : State} {p : Position} {result : Except Stop α}
    (run : a s = (result, t)) (placed : ∀ {stop}, result = .error stop → ∀ l, stop.locate l = stop) :
    located m p a s = (result, t) := by
  cases result with
  | ok x => exact located_ok run
  | error stop => rw [located_error run, placed rfl]

end Eval

open Eval in
/-- A loop over a string or a list makes a fixed number of turns, from every state a run can be in and whatever
its body does.  The body is started once for each element the sequence has when the loop begins, and no more
often.  When it is started for the `k`-th time, from 0 on, the counter is bound to `k` and the element to a new
box with what the `k`-th element of the sequence holds then.  There are as many starts as elements, unless the
body breaks the loop, returns, or is stopped by an error or an exit.  The loop ends as its last turn says, and
its block is closed.  And wherever a run leads, a list has the boxes it was made with, so as many as then. -/
theorem evalStmt_forIn_turns {cfg : Config} {s : State} {m : ModuleId} {counter element : Ident}
    (running : Running cfg m s) (distinct : counter.name ≠ element.name) (p : Position) (target : Expr)
    (body : Block) (fuel calls : Nat) :
    (∀ {b t}, evalExpr cfg fuel ⟨m, calls⟩ target s = (.ok b, t) → (t.heap.value b).isSequence →
      ∃ m' h starts ending, t.Stands m m' ∧ t.heap.Grows h ∧
        Turns (evaluators cfg fuel) ⟨m, calls⟩ counter.name element.name body (t.heap.value b) 0
          ((t.heap.value b).length t.heap) ((t.openBlock m').withHeap h) starts ending ∧
        starts.length ≤ (t.heap.value b).length t.heap ∧
        (∀ k u, starts[k]? = some u →
          ∃ before, StartsTurn m counter.name element.name (t.heap.value b) k before u) ∧
        (∀ u, ending = .exhausted u → starts.length = (t.heap.value b).length t.heap) ∧
        evalStmt cfg (fuel + 1) ⟨m, calls⟩ (.forIn p target counter element body) s =
          (ending.result, ending.state.closeBlock m')) ∧
    ∀ {t}, Leads cfg s t → ∀ l, s.HasList l → t.heap.items l = s.heap.items l := by
  refine ⟨fun {b t} evaluated isSequence => ?_, fun leads l there =>
    leads.items_eq running.reachable.wellFormed there⟩
  obtain ⟨receivers, owned⟩ := running.reachable.owned
  obtain ⟨w, opened, begun⟩ := Discipline.owned_upholds.beginsFor
    ⟨running.reachable.wellFormed, receivers, owned⟩ running.here
  obtain ⟨holds, later, -⟩ := evalExpr_keeps_held begun opened.here evaluated
  have opened₁ := opened.mono later
  obtain ⟨m', stands, hasBlocks⟩ := opened₁.blocks.hasBlocks
  have there : t.HasModule m' := (holds.wf.found _ m' stands).1
  obtain ⟨w', isOpen, rel, closes⟩ := Discipline.owned.block holds.wf there hasBlocks holds.rel
  have grew : t.Extends (t.openBlock m') := t.extends_modifyScope m' _
  have entered : Discipline.owned.Holds w' 0 (t.openBlock m') (t.openBlock m') :=
    ⟨holds.wf.openBlock there, holds.held.mono grew, rel⟩
  have opened₂ : Discipline.owned.OpenFor w' (t.openBlock m') m :=
    ⟨opened₁.module.mono grew, m', stands.mono grew opened₁.module, isOpen⟩
  obtain ⟨boxes, h, found, grows, H, holds', supply⟩ :=
    run_elements entered ((holds.wf.valid_value b).mono grew) isSequence
  have grew' : (t.openBlock m').Extends ((t.openBlock m').withHeap h) := State.extends_withHeap grows
  obtain ⟨starts, ending, turns, ran, last, grew''⟩ :=
    run_forTurns cfg fuel calls distinct body holds' (opened₂.mono grew') supply
  have size : boxes.length = (t.heap.value b).length t.heap :=
    supply.length_eq.trans (Value.length_eq grows (holds.wf.sound.value b))
  rw [size] at turns
  have active : (ending.state.registry.module m').scope.blockDepth ≠ 0 :=
    (closes last.wf (((there.mono grew).mono grew').mono grew'') last.rel).1
  refine ⟨m', h, starts, ending, stands, grows, turns, turns.length_le, fun k u start => ?_, ?_, ?_⟩
  · exact Nat.zero_add k ▸ turns.startsTurn start
  · rintro u rfl
    exact turns.length_eq
  · rw [evalStmt_succ]
    refine located_of_placed ?_ (placed_of_turns turns)
    have inside : (do
        let q ← onHeap (Sequence.ofValue (t.heap.value b))
        let boxes ← onHeap q.elements
        forTurns (evaluators cfg fuel) ⟨m, calls⟩ counter.name element.name body boxes 0 : Eval Flow)
          (t.openBlock m') = (ending.result, ending.state) := by
      rw [← bind_assoc, bind_ok found, ran]
    have bracketed := Discipline.Agree.run_inBlock stands inside active
    change forLoop (evaluators cfg fuel) ⟨m, calls⟩ target counter.name element.name body s = _
    rw [forLoop, evaluators_expr, bind_ok evaluated, bind_ok (run_read b t), isSequence]
    exact bracketed

/-- The body assigns to the names of the loop, to the variable with the list, and to an element of the list. -/
theorem evalStmt_forIn_turns_overwriting :
    let main := State.initial.load (.ofSource "main" "/" "")
    let s := (evalStmt .standard 9 ⟨⟨0⟩, 5⟩ (.assign .start .plain [.ident .start "xs"]
      [.list .start [.literal .start (.int 1), .literal .start (.int 2)]]) main).2
    let set (left : Expr) : Stmt := .assign .start .plain [left] [.literal .start (.int 7)]
    let body : Block := [set (.ident .start "i"), set (.ident .start "x"),
      set (.index .start (.ident .start "xs") (.literal .start (.int 1))), set (.ident .start "xs")]
    let loop : Stmt := .forIn .start (.ident .start "xs") ⟨.start, "i"⟩ ⟨.start, "x"⟩ body
    Running .standard ⟨0⟩ s ∧ ∃ begun starts ending,
      Turns (evaluators .standard 8) ⟨⟨0⟩, 5⟩ "i" "x" body (.list ⟨0⟩) 0 2 begun starts ending ∧
      starts.length ≤ 2 ∧ (∀ u, ending = .exhausted u → starts.length = 2) ∧
      evalStmt .standard 9 ⟨⟨0⟩, 5⟩ loop s = (ending.result, ending.state.closeBlock ⟨0⟩) ∧
      (evalStmt .standard 9 ⟨⟨0⟩, 5⟩ loop s).2.heap.items ⟨0⟩ = s.heap.items ⟨0⟩ := by
  intro main s set body loop
  have begun : Running .standard ⟨0⟩ main :=
    ⟨.register .initial rfl, State.hasModule_load State.initial _⟩
  have running : Running .standard ⟨0⟩ s := begun.evalStmt 9 5 _
  have bound : Eval.getObj? ⟨0⟩ "xs" s = (.ok (some ⟨13⟩), s) := rfl
  have value : s.heap.value ⟨13⟩ = .list ⟨0⟩ := rfl
  have stands : s.Stands ⟨0⟩ ⟨0⟩ := rfl
  have size : (Value.list ⟨0⟩).length s.heap = 2 := by decide +kernel
  have distinct : (⟨.start, "i"⟩ : Ident).name ≠ (⟨.start, "x"⟩ : Ident).name := by decide
  obtain ⟨loops, keeps⟩ := evalStmt_forIn_turns running distinct .start (.ident .start "xs") body 8 5
  obtain ⟨m', h, starts, ending, stands', -, turns, atMost, -, all, run⟩ :=
    loops (Eval.evalExpr_ident bound) (by rw [value]; rfl)
  cases stands.symm.trans stands'
  rw [value, size] at turns atMost all
  exact ⟨running, _, starts, ending, turns, atMost, all, run,
    keeps (.stmtEnd 9 loop .here running.here) ⟨0⟩ (by change 0 < s.heap.lists.size; decide +kernel)⟩

end Shiba

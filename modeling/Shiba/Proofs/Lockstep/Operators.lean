import Shiba.Builtin.Call
import Shiba.Operator.Apply
import Shiba.Proofs.Lockstep.Data

/-!
# Rules for operators and functions that come with the language

Both answer a valid value, and the failures of the machine they have a name for are out of reach,
because what could fail is tested before.

* `Integer.compute?_outer`: a divisor is tested before it is divided by.
* `State.WellFormed.equal_outer`: two instances of one definition have the same fields.
* `Agree.builtinCall`: the number of arguments is tested before one of them is taken.
-/

namespace Shiba

/-! ## Results that are no failure of the machine -/

/-- A result that is no failure of the machine. -/
def Outer {α : Type} : Except Stop α → Prop
  | .ok _ => True
  | .error stop => ¬ stop.Internal

theorem outer_bind {α β : Type} {x : Except Stop α} {f : α → Except Stop β} (first : Outer x)
    (rest : ∀ a, Outer (f a)) : Outer (x >>= f) := by
  cases x with
  | ok a => exact rest a
  | error stop => exact first

theorem outer_allM {α : Type} {p : α → Except Stop Bool} {xs : List α}
    (each : ∀ x ∈ xs, Outer (p x)) : Outer (xs.allM p) := by
  induction xs with
  | nil => trivial
  | cons x xs ih =>
    have later := ih fun y member => each y (List.mem_cons_of_mem x member)
    rw [List.allM]
    apply outer_bind (each x List.mem_cons_self)
    intro holds
    cases holds with
    | false => trivial
    | true => exact later

/-- An integer is divided only by what is not zero. -/
theorem Integer.compute?_outer {op : BinaryOp} {a b : Int64} {cause : Cause}
    (failed : compute? op a b = some (.error cause)) (failure : Invariant) :
    cause ≠ .invariant failure := by
  rintro rfl
  cases op with
  | div =>
    rw [compute?] at failed
    split at failed
    · cases failed
    · next nonzero =>
      rw [quotient, if_neg nonzero] at failed
      cases failed
  | mod =>
    rw [compute?] at failed
    split at failed
    · cases failed
    · next nonzero =>
      rw [remainder, if_neg nonzero] at failed
      cases failed
  | shiftLeft =>
    rw [compute?] at failed
    split at failed
    · cases failed
    · split at failed <;> cases failed
  | shiftRight =>
    rw [compute?] at failed
    split at failed <;> cases failed
  | _ => cases failed

/-- Comparing values of a well-formed state finds every field it looks for. -/
theorem State.WellFormed.equal_outer {s : State} (wf : s.WellFormed) (limit : Nat) {v u : Value}
    (valid : s.Valid v) (valid' : s.Valid u) : Outer (s.heap.equal limit v u) := by
  induction limit generalizing v u with
  | zero => exact id
  | succ limit ih =>
    have inside : ∀ a b, Outer (s.heap.equal limit (s.heap.value a) (s.heap.value b)) :=
      fun a b => ih (wf.valid_value a) (wf.valid_value b)
    unfold Heap.equal
    split
    case h_6 a b _ _ =>
      dsimp only
      split
      · trivial
      · exact outer_allM fun e _ => inside e.1 e.2
    case h_7 a b _ _ =>
      dsimp only
      split
      · trivial
      · apply outer_allM
        intro e _
        split
        · exact inside _ _
        · trivial
    case h_8 a b =>
      dsimp only
      split
      · trivial
      · next same =>
        rw [not_not] at same
        apply outer_allM
        intro e member
        -- both instances have the fields of the one definition
        have bound : e.1 ∈ (s.heap.instanceAt b).fields.keys := by
          rw [(wf.shaped valid').fields, ← same, ← (wf.shaped valid).fields]
          exact List.mem_map_of_mem member
        obtain ⟨other, found⟩ := OrderedMap.exists_get?_of_mem_keys bound
        rw [found]
        exact inside _ _
    all_goals trivial

namespace Discipline.Agree

open Eval

variable {D : Discipline} {w : D.World} {H K : Multiset BoxId} {s₁ s₂ : State} {α : Type}

/-! ## Operators -/

/-- A traversal of the heap that can stop by itself. -/
theorem answer {f : Heap → Except Stop α} (holds : D.Holds w H s₁ s₂) (outer : Outer (f s₁.heap)) :
    D.Agree w s₁ s₂ (onHeap (HeapM.answer f)) (onHeap (HeapM.answer f)) fun _ t₁ t₂ =>
      Unchanged s₁ s₂ t₁ t₂ := by
  rw [HeapM.answer, onHeap_get_bind]
  apply get_bind
  rw [holds.alike.heap]
  cases result : f s₁.heap with
  | ok x => exact pure x ⟨rfl, rfl⟩
  | error stop =>
    rw [result] at outer
    exact throw holds outer

theorem invalidOperands {Q : α → State → State → Prop} (holds : D.Holds w H s₁ s₂) (op : String)
    (l r : Value) :
    D.Agree w s₁ s₂ (onHeap (HeapM.invalidOperands op l r)) (onHeap (HeapM.invalidOperands op l r))
      Q := by
  rw [HeapM.invalidOperands, onHeap_raise]
  exact raise holds nofun

theorem ofCause {result : Except Cause α} (holds : D.Holds w H s₁ s₂)
    (outer : ∀ cause, result = .error cause → ∀ failure, cause ≠ .invariant failure) :
    D.Agree w s₁ s₂ (onHeap (HeapM.ofCause result)) (onHeap (HeapM.ofCause result)) fun _ t₁ t₂ =>
      Unchanged s₁ s₂ t₁ t₂ := by
  cases result with
  | ok x =>
    rw [HeapM.ofCause, onHeap_pure]
    exact pure x ⟨rfl, rfl⟩
  | error cause =>
    rw [HeapM.ofCause, onHeap_raise]
    exact raise holds (outer cause rfl)

/-- A result on floats is a float. -/
theorem onFloats {op : BinaryOp} (holds : D.Holds w H s₁ s₂) (a b : Float) (l r : Value) :
    D.Agree w s₁ s₂
      (onHeap (match op.floats? a b with
        | some result => return .float (← HeapM.ofCause result)
        | none => HeapM.invalidOperands op.text l r))
      (onHeap (match op.floats? a b with
        | some result => return .float (← HeapM.ofCause result)
        | none => HeapM.invalidOperands op.text l r))
      fun v t₁ t₂ => D.Holds w H t₁ t₂ ∧ t₁.Valid v := by
  cases computed : op.floats? a b with
  | none => exact invalidOperands holds op.text l r
  | some result =>
    simp only [onHeap_bind, onHeap_pure]
    apply look_bind (ofCause holds ?_)
    · intro x
      exact pure _ ⟨holds, trivial⟩
    · rintro cause rfl failure rfl
      cases op with
      | div =>
        rw [BinaryOp.floats?] at computed
        split at computed <;> cases computed
      | _ => cases computed

/-- Arithmetic answers a valid value. -/
theorem compute {op : BinaryOp} (holds : D.Holds w H s₁ s₂) (l r : Value) :
    D.Agree w s₁ s₂ (onHeap (op.compute l r)) (onHeap (op.compute l r)) fun v t₁ t₂ =>
      D.Holds w H t₁ t₂ ∧ t₁.Valid v := by
  unfold BinaryOp.compute
  dsimp only
  split
  · next a b =>
    cases computed : Integer.compute? op a b with
    | none => exact invalidOperands holds op.text _ _
    | some result =>
      simp only [onHeap_bind, onHeap_pure]
      apply look_bind (ofCause holds ?_)
      · intro n
        exact pure _ ⟨holds, trivial⟩
      · rintro cause rfl
        exact Integer.compute?_outer computed
  · exact onFloats holds _ _ _ _
  · exact onFloats holds _ _ _ _
  · exact onFloats holds _ _ _ _
  · split
    · rw [onHeap_pure]
      exact pure _ ⟨holds, trivial⟩
    · exact invalidOperands holds op.text _ _
  · split
    · rw [onHeap_get_bind]
      simp only [onHeap_bind, onHeap_mapM, onHeap_pure]
      apply get_bind
      rw [holds.alike.heap]
      apply bind (copyAll holds _)
      intro copies t₁ t₂ _ ended
      obtain ⟨copied, -⟩ := ended
      apply bind (allocList (by simpa using copied))
      intro l' u₁ u₂ _ ended
      obtain ⟨after, valid⟩ := ended
      exact pure _ ⟨after, valid⟩
    · exact invalidOperands holds op.text _ _
  · exact invalidOperands holds op.text _ _

theorem binaryApply {l r : Value} (holds : D.Holds w H s₁ s₂) (limit : Nat) (op : BinaryOp)
    (left : s₁.Valid l) (right : s₁.Valid r) :
    D.Agree w s₁ s₂ (onHeap (op.apply limit l r)) (onHeap (op.apply limit l r)) fun v t₁ t₂ =>
      D.Holds w H t₁ t₂ ∧ t₁.Valid v := by
  have compared := holds.wf.equal_outer limit left right
  cases op with
  | equal | notEqual =>
    simp only [BinaryOp.apply, onHeap_bind, onHeap_pure]
    apply look_bind (answer holds compared)
    intro b
    exact pure _ ⟨holds, trivial⟩
  | less | lessEqual | greater | greaterEqual =>
    rw [BinaryOp.apply]
    split
    · rw [onHeap_pure]
      exact pure _ ⟨holds, trivial⟩
    · exact invalidOperands holds _ l r
  | and | or =>
    unfold BinaryOp.apply
    dsimp only
    split
    · rw [onHeap_pure]
      exact pure _ ⟨holds, trivial⟩
    · exact invalidOperands holds _ l r
  | add | sub | mul | div | mod | bitAnd | bitOr | bitXor | shiftLeft | shiftRight =>
    unfold BinaryOp.apply
    exact compute holds l r

theorem unaryApply (holds : D.Holds w H s₁ s₂) (op : UnaryOp) (v : Value) :
    D.Agree w s₁ s₂ (onHeap (op.apply v)) (onHeap (op.apply v)) fun u t₁ t₂ =>
      D.Holds w H t₁ t₂ ∧ t₁.Valid u := by
  unfold UnaryOp.apply
  split
  case h_5 =>
    rw [onHeap_get_bind]
    apply get_bind
    rw [holds.alike.heap, onHeap_pure]
    exact pure _ ⟨holds, trivial⟩
  case h_7 =>
    rw [onHeap_raise]
    exact raise holds nofun
  all_goals
    rw [onHeap_pure]
    exact pure _ ⟨holds, trivial⟩

/-! ## The module `math` -/

theorem number (holds : D.Holds w H s₁ s₂) (v : Value) :
    D.Agree w s₁ s₂ (onHeap (Math.number v)) (onHeap (Math.number v)) fun _ t₁ t₂ =>
      Unchanged s₁ s₂ t₁ t₂ := by
  unfold Math.number
  split
  · rw [onHeap_pure]
    exact pure _ ⟨rfl, rfl⟩
  · rw [onHeap_pure]
    exact pure _ ⟨rfl, rfl⟩
  · rw [onHeap_get_bind]
    apply get_bind
    rw [holds.alike.heap, onHeap_raise]
    exact raise holds nofun

theorem checked (holds : D.Holds w H s₁ s₂) (b : Builtin) (result : Except MathFault α) :
    D.Agree w s₁ s₂ (onHeap (Math.checked b result)) (onHeap (Math.checked b result)) fun _ t₁ t₂ =>
      Unchanged s₁ s₂ t₁ t₂ := by
  cases result with
  | ok x =>
    rw [Math.checked, onHeap_pure]
    exact pure _ ⟨rfl, rfl⟩
  | error fault =>
    rw [Math.checked, onHeap_raise]
    exact raise holds nofun

theorem total (holds : D.Holds w H s₁ s₂) (values : List Value) (sum : Int) :
    D.Agree w s₁ s₂ (onHeap (Math.total sum values)) (onHeap (Math.total sum values)) fun _ t₁ t₂ =>
      Unchanged s₁ s₂ t₁ t₂ := by
  induction values generalizing sum with
  | nil =>
    rw [Math.total, onHeap_pure]
    exact pure _ ⟨rfl, rfl⟩
  | cons v values ih =>
    unfold Math.total
    split
    · next none => cases none
    · next n rest whole =>
      cases whole
      exact ih _
    · rw [onHeap_get_bind]
      apply get_bind
      rw [holds.alike.heap, onHeap_raise]
      exact raise holds nofun

theorem mathSqrt (holds : D.Holds w H s₁ s₂) (v : Value) :
    D.Agree w s₁ s₂ (onHeap (Math.sqrt v)) (onHeap (Math.sqrt v)) fun u t₁ t₂ =>
      D.Holds w H t₁ t₂ ∧ t₁.Valid u := by
  simp only [Math.sqrt, onHeap_bind, onHeap_pure]
  apply look_bind (number holds v)
  intro x
  apply look_bind (checked holds _ _)
  intro r
  exact pure _ ⟨holds, trivial⟩

theorem mathFloor (holds : D.Holds w H s₁ s₂) (v : Value) :
    D.Agree w s₁ s₂ (onHeap (Math.floor v)) (onHeap (Math.floor v)) fun u t₁ t₂ =>
      D.Holds w H t₁ t₂ ∧ t₁.Valid u := by
  unfold Math.floor
  split
  · rw [onHeap_pure]
    exact pure _ ⟨holds, trivial⟩
  · simp only [onHeap_bind, onHeap_pure]
    apply look_bind (number holds _)
    intro x
    apply look_bind (checked holds _ _)
    intro r
    exact pure _ ⟨holds, trivial⟩

theorem mathPow (holds : D.Holds w H s₁ s₂) (v u : Value) :
    D.Agree w s₁ s₂ (onHeap (Math.pow v u)) (onHeap (Math.pow v u)) fun r t₁ t₂ =>
      D.Holds w H t₁ t₂ ∧ t₁.Valid r := by
  have powers : D.Agree w s₁ s₂
      (onHeap do
        let x ← Math.number v
        let y ← Math.number u
        return .float (← Math.checked .mathPow (Math.powerFloat x y)))
      (onHeap do
        let x ← Math.number v
        let y ← Math.number u
        return .float (← Math.checked .mathPow (Math.powerFloat x y)))
      fun r t₁ t₂ => D.Holds w H t₁ t₂ ∧ t₁.Valid r := by
    simp only [onHeap_bind, onHeap_pure]
    apply look_bind (number holds v)
    intro x
    apply look_bind (number holds u)
    intro y
    apply look_bind (checked holds _ _)
    intro r
    exact pure _ ⟨holds, trivial⟩
  unfold Math.pow
  dsimp only
  split
  · split
    · rw [onHeap_pure]
      exact pure _ ⟨holds, trivial⟩
    · exact powers
  · exact powers

/-! ## The other functions -/

theorem typeMismatch {Q : α → State → State → Prop} (holds : D.Holds w H s₁ s₂) (expected : String)
    (b : BoxId) :
    D.Agree w s₁ s₂ (do Eval.raise (.typeMismatch expected (← Eval.typeName b)))
      (do Eval.raise (.typeMismatch expected (← Eval.typeName b))) Q := by
  apply look_bind (typeName holds b)
  intro name
  exact raise holds nofun

theorem dictionary (holds : D.Holds w H s₁ s₂) (b : BoxId) :
    D.Agree w s₁ s₂ (Builtin.dictionary b) (Builtin.dictionary b) fun _ t₁ t₂ =>
      Unchanged s₁ s₂ t₁ t₂ := by
  apply read_bind holds b
  split
  · exact pure _ ⟨rfl, rfl⟩
  · exact typeMismatch holds "dict" b

theorem length (holds : D.Holds w H s₁ s₂) (b : BoxId) :
    D.Agree w s₁ s₂ (Builtin.length b) (Builtin.length b) fun v t₁ t₂ =>
      D.Holds w H t₁ t₂ ∧ t₁.Valid v := by
  apply get_bind
  rw [holds.alike.heap]
  dsimp only
  split
  · exact pure _ ⟨holds, trivial⟩
  · exact pure _ ⟨holds, trivial⟩
  · exact pure _ ⟨holds, trivial⟩
  · exact raise holds nofun

theorem exitWith (holds : D.Holds w H s₁ s₂) (b : BoxId) :
    D.Agree w s₁ s₂ (Builtin.exitWith b) (Builtin.exitWith b) fun v t₁ t₂ =>
      D.Holds w H t₁ t₂ ∧ t₁.Valid v := by
  apply read_bind holds b
  split
  · exact throw holds id
  · exact typeMismatch holds "i64" b

/-- The keys of a dictionary are handed out as deep copies. -/
theorem keyList (holds : D.Holds w H s₁ s₂) (cfg : Config) (b : BoxId) :
    D.Agree w s₁ s₂ (Builtin.keyList cfg b) (Builtin.keyList cfg b) fun v t₁ t₂ =>
      D.Holds w H t₁ t₂ ∧ t₁.Valid v := by
  apply look_bind (dictionary holds b)
  intro d
  apply get_bind
  simp only [holds.alike.heap, onHeap_bind, onHeap_mapM, onHeap_pure]
  apply bind (collect (R := fun _ _ => True) (g := fun c => {c}) _ holds ?_)
  · intro copies u₁ u₂ _ ended
    obtain ⟨copied, -⟩ := ended
    rw [Multiset.bind_singleton, Multiset.map_id'] at copied
    apply bind (allocList (by simpa using copied))
    intro l v₁ v₂ _ ended
    obtain ⟨after, valid⟩ := ended
    exact pure _ ⟨after, valid⟩
  · intro key _ K u₁ u₂ _ here
    exact (clone here cfg.dataLimit key).mono fun _ _ _ _ after => ⟨after, trivial⟩

theorem deleteKey (holds : D.Holds w H s₁ s₂) (cfg : Config) (b key : BoxId) :
    D.Agree w s₁ s₂ (Builtin.deleteKey cfg b key) (Builtin.deleteKey cfg b key) fun v t₁ t₂ =>
      D.Holds w H t₁ t₂ ∧ t₁.Valid v := by
  apply look_bind (dictionary holds b)
  intro d
  rw [onHeap_bind]
  apply bind (dictDelete holds cfg.dataLimit d key)
  intro found u₁ u₂ _ after
  cases found with
  | true =>
    simp only [if_true, onHeap_pure]
    exact pure _ ⟨after, trivial⟩
  | false => exact keyNotFound after cfg.dataLimit b key

/-- What the registry shows is read off the names of the top levels of the modules. -/
theorem registryText (alike : s₁.Alike s₂) (h : Heap) (limit : Nat) :
    s₂.registry.text h limit = s₁.registry.text h limit := by
  have lines : ∀ key m, Registry.moduleLines h limit key (s₂.registry.module m) =
      Registry.moduleLines h limit key (s₁.registry.module m) := by
    intro key m
    rw [Registry.moduleLines, Registry.moduleLines, alike.objs, alike.structs]
  rw [Registry.text, Registry.text, alike.keys]
  simp only [lines]

/-- Reading off several boxes. -/
theorem mapM_read {f : BoxId → Eval α}
    (each : ∀ b, D.Agree w s₁ s₂ (f b) (f b) fun _ t₁ t₂ => Unchanged s₁ s₂ t₁ t₂)
    (boxes : List BoxId) :
    D.Agree w s₁ s₂ (boxes.mapM f) (boxes.mapM f) fun _ t₁ t₂ => Unchanged s₁ s₂ t₁ t₂ := by
  apply mapM (I := fun _ _ t₁ t₂ => Unchanged s₁ s₂ t₁ t₂) boxes ⟨rfl, rfl⟩
  intro b _ before ys t₁ t₂ _ ended
  obtain ⟨rfl, rfl⟩ := ended
  exact each b

/-- A function that takes as many arguments as there are answers a valid value. -/
theorem perform {f : Builtin} {args : List BoxId} (holds : D.Holds w H s₁ s₂) (cfg : Config)
    (enough : ∀ n, f.arity = some n → args.length = n) :
    D.Agree w s₁ s₂ (f.perform cfg args) (f.perform cfg args) fun v t₁ t₂ =>
      D.Holds w H t₁ t₂ ∧ t₁.Valid v := by
  unfold Builtin.perform
  split
  · apply look_bind (mapM_read (fun b => display holds cfg b) args)
    intro texts
    apply bind (print holds _)
    intro _ u₁ u₂ _ after
    exact pure _ ⟨after, trivial⟩
  · exact length holds _
  · exact exitWith holds _
  · apply get_bind
    simp only [registryText holds.alike]
    apply find_bind (bounded holds _)
    intro text _
    apply bind (print holds _)
    intro _ u₁ u₂ _ after
    exact pure _ ⟨after, trivial⟩
  · exact keyList holds cfg _
  · exact deleteKey holds cfg _ _
  · apply look_bind (typeName holds _)
    intro name
    exact pure _ ⟨holds, trivial⟩
  · apply look_bind (display holds cfg _)
    intro name
    exact pure _ ⟨holds, trivial⟩
  · apply look_bind (mapM_read (fun b => (read holds b).mono fun _ _ _ _ after => after.1) args)
    intro values
    simp only [Math.add, onHeap_bind, onHeap_pure]
    apply look_bind (total holds values 0)
    intro n
    exact pure _ ⟨holds, trivial⟩
  · apply read_bind holds _
    exact mathSqrt holds _
  · apply read_bind holds _
    exact mathFloor holds _
  · apply read_bind holds _
    apply read_bind holds _
    exact mathPow holds _ _
  · -- a function that takes a number of arguments has its own case for that number
    exfalso
    cases f <;> simp_all [Builtin.arity, List.length_eq_one_iff, List.length_eq_two]

/-- The arguments of a call are shown when calls are traced. -/
theorem traceCall (holds : D.Holds w H s₁ s₂) (cfg : Config) (args : List BoxId)
    (text : List String → Eval String)
    (reads : ∀ shown, D.Agree w s₁ s₂ (text shown) (text shown) fun _ t₁ t₂ =>
      Unchanged s₁ s₂ t₁ t₂) :
    D.Agree w s₁ s₂ (Eval.trace cfg 3 (args.mapM (Eval.canonical cfg) >>= text))
      (Eval.trace cfg 3 (args.mapM (Eval.canonical cfg) >>= text)) fun _ t₁ t₂ =>
        D.Holds w H t₁ t₂ := by
  apply trace holds
  apply look_bind (mapM_read (fun b => canonical holds cfg b) args)
  intro shown
  exact reads shown

/-- Calling a function that comes with the language answers a new box. -/
theorem builtinCall (holds : D.Holds w H s₁ s₂) (cfg : Config) (f : Builtin) (args : List BoxId) :
    D.Agree w s₁ s₂ (f.call cfg args) (f.call cfg args) fun b t₁ t₂ =>
      D.Holds w H t₁ t₂ ∧ t₁.HasBox b := by
  by_cases enough : ∀ n, f.arity = some n → args.length = n
  · have whole : f.call cfg args = (do
        Eval.trace cfg 3 do
          let shown ← args.mapM (Eval.canonical cfg)
          return "call builtin " ++ f.name ++ "(" ++ ", ".intercalate shown ++ ")"
        Eval.alloc (← f.perform cfg args)) := by
      unfold Builtin.call
      dsimp only
      split
      · next n takes => rw [if_neg (not_not.2 (enough n takes))]
      · rfl
    rw [whole]
    apply bind (traceCall holds cfg args _ fun _ => pure _ ⟨rfl, rfl⟩)
    intro _ t₁ t₂ _ here
    exact boxed (perform here cfg enough)
  · obtain ⟨n, wrong⟩ := not_forall.1 enough
    obtain ⟨takes, other⟩ := Classical.not_imp.1 wrong
    simp only [Builtin.call, takes, if_pos other]
    exact raise_bind holds nofun

end Discipline.Agree

end Shiba

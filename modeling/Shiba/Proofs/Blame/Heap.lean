import Shiba.Builtin.Math
import Shiba.Operator.Apply
import Shiba.Proofs.Blame.Basic
import Shiba.Value.Sequence

/-!
# Operations on the heap define no functions and blame no jumps

Whatever touches nothing but the heap, with the one exception of a definition, leaves the functions as they
are.  When it fails it says why but not where, and the reason is never a jump: that is for the construct
around it to find out.

* `HeapM.Tame` says so of an operation.
* `Norms.Steps.onHeap`: a tame operation is a step that stops accountably.
* The rest of the module goes through copies, dictionaries, sequences, operators and the functions of
  `math`.
-/

namespace Shiba

/-- A stop that has no place yet, and blames no jump, and no crash. -/
def Stop.Plain : Stop → Prop
  | .error e => e.location = none ∧ e.cause.isJump = false
  | .crash _ => False
  | _ => True

theorem Stop.plain_ofCause {cause : Cause} (plain : cause.isJump = false) : (ofCause cause).Plain :=
  ⟨rfl, plain⟩

namespace HeapM

variable {α β : Type} {a : HeapM α} {f : α → HeapM β}

/-- An operation that leaves the functions as they are, and fails without a place and without blaming a
jump. -/
def Tame (act : HeapM α) : Prop :=
  ∀ h, (act h).2.functions = h.functions ∧ ∀ stop, (act h).1 = .error stop → stop.Plain

namespace Tame

theorem pure (x : α) : (pure x : HeapM α).Tame := fun _ => ⟨rfl, fun _ isStop => by cases isStop⟩

theorem throw {stop : Stop} (plain : stop.Plain) : (throw stop : HeapM α).Tame :=
  fun _ => ⟨rfl, fun _ isStop => by cases isStop; exact plain⟩

theorem raise {cause : Cause} (plain : cause.isJump = false) : (raise cause : HeapM α).Tame :=
  throw (Stop.plain_ofCause plain)

theorem bind (first : a.Tame) (rest : ∀ x, (f x).Tame) : (a >>= f).Tame := by
  intro h
  obtain ⟨same, plain⟩ := first h
  change ((ExceptT.bindCont f (a h).1 : StateM Heap _) (a h).2).2.functions = _ ∧
    ∀ stop, ((ExceptT.bindCont f (a h).1 : StateM Heap _) (a h).2).1 = _ → _
  rcases run : a h with ⟨stop | x, h'⟩
  · rw [run] at same plain
    exact ⟨same, fun _ isStop => by cases isStop; exact plain stop rfl⟩
  · rw [run] at same
    obtain ⟨same', plain'⟩ := rest x h'
    exact ⟨same'.trans same, plain'⟩

/-- An operation that always comes to its end. -/
theorem of_quiet (quiet : ∀ h, (∃ x, (a h).1 = .ok x) ∧ (a h).2.functions = h.functions) : a.Tame := by
  intro h
  obtain ⟨⟨x, isOk⟩, same⟩ := quiet h
  refine ⟨same, fun stop isStop => ?_⟩
  rw [isOk] at isStop
  cases isStop

theorem get : (get : HeapM Heap).Tame := of_quiet fun h => ⟨⟨h, rfl⟩, rfl⟩

theorem modify {f : Heap → Heap} (same : ∀ h, (f h).functions = h.functions) :
    (modify f : HeapM Unit).Tame :=
  of_quiet fun h => ⟨⟨(), rfl⟩, same h⟩

theorem mapM {f : α → HeapM β} (each : ∀ x, (f x).Tame) (xs : List α) : (xs.mapM f).Tame := by
  induction xs with
  | nil => exact pure []
  | cons x xs ih =>
    rw [List.mapM_cons]
    exact (each x).bind fun y => ih.bind fun ys => pure (y :: ys)

theorem ofExcept {result : Except Stop α} (plain : ∀ stop, result = .error stop → stop.Plain) :
    (MonadExcept.ofExcept result : HeapM α).Tame := by
  cases result with
  | ok x => exact pure x
  | error stop => exact throw (plain stop rfl)

theorem bounded (f : Heap → Option α) : (bounded f).Tame := by
  refine get.bind fun h => ?_
  split
  · exact pure _
  · exact throw trivial

/-! ## Boxes and copies -/

theorem alloc (v : Value) : (alloc v).Tame := of_quiet fun _ => ⟨⟨_, rfl⟩, rfl⟩

theorem read (b : BoxId) : (read b).Tame := of_quiet fun _ => ⟨⟨_, rfl⟩, rfl⟩

theorem copy (b : BoxId) : (copy b).Tame := (read b).bind fun v => alloc v

theorem allocList (items : Array BoxId) : (allocList items).Tame := of_quiet fun _ => ⟨⟨_, rfl⟩, rfl⟩

theorem allocDict (m : Dictionary) : (allocDict m).Tame := of_quiet fun _ => ⟨⟨_, rfl⟩, rfl⟩

theorem allocInstance (i : Instance) : (allocInstance i).Tame := of_quiet fun _ => ⟨⟨_, rfl⟩, rfl⟩

theorem allocStruct (s : StructDef) : (allocStruct s).Tame := of_quiet fun _ => ⟨⟨_, rfl⟩, rfl⟩

theorem cloneValue (limit : Nat) (v : Value) : (cloneValue limit v).Tame := by
  induction limit generalizing v with
  | zero => exact throw trivial
  | succ limit ih =>
    have inside (b : BoxId) : (do HeapM.alloc (← HeapM.cloneValue limit (← HeapM.read b))).Tame :=
      (read b).bind fun v => (ih v).bind fun v' => alloc v'
    rw [HeapM.cloneValue.eq_def]
    dsimp only
    split
    · exact get.bind fun h => (mapM inside _).bind fun _ => (allocList _).bind fun _ => pure _
    · refine get.bind fun h => (mapM (fun e => ?_) _).bind fun _ => (allocDict _).bind fun _ => pure _
      exact (inside _).bind fun _ => (inside _).bind fun _ => pure _
    · refine get.bind fun h => (mapM (fun e => ?_) _).bind fun _ => (allocInstance _).bind fun _ => pure _
      exact (inside _).bind fun _ => pure _
    · exact pure _

theorem clone (limit : Nat) (b : BoxId) : (clone limit b).Tame :=
  (read b).bind fun v => (cloneValue limit v).bind fun v' => alloc v'

/-! ## Dictionaries and sequences -/

variable {limit : Nat} {d : DictId}

theorem keyOf (b : BoxId) : (keyOf limit b).Tame := (read b).bind fun _ => bounded _

theorem dictGet? (key : BoxId) : (dictGet? limit d key).Tame :=
  (keyOf key).bind fun _ => get.bind fun _ => pure _

theorem dictSet (key value : BoxId) : (dictSet limit d key value).Tame := by
  refine (keyOf key).bind fun k => get.bind fun h => ?_
  split
  · exact modify fun _ => rfl
  · exact (clone limit key).bind fun _ => modify fun _ => rfl

theorem dictDelete (key : BoxId) : (dictDelete limit d key).Tame := by
  refine (keyOf key).bind fun k => get.bind fun h => ?_
  split
  · exact (modify fun _ => rfl).bind fun _ => pure _
  · exact pure _

theorem keyNotFound (container key : BoxId) : (keyNotFound limit container key : HeapM α).Tame :=
  (read key).bind fun _ => (bounded _).bind fun _ => (read container).bind fun _ => raise rfl

theorem ofValue (v : Value) : (Sequence.ofValue v).Tame := by
  rw [Sequence.ofValue.eq_def]
  split
  · exact pure _
  · exact get.bind fun _ => pure _
  · exact raise rfl

theorem index (s : Sequence) (i : Nat) : (s.index i).Tame := by
  cases s with
  | text chars =>
    rw [Sequence.index]
    split
    · exact alloc _
    · exact raise rfl
  | boxes items =>
    rw [Sequence.index]
    split
    · exact pure _
    · exact raise rfl

theorem slice (s : Sequence) (first last : Nat) : (s.slice first last).Tame := by
  cases s with
  | text chars => exact pure _
  | boxes items => exact (mapM copy _).bind fun _ => (allocList _).bind fun _ => pure _

theorem elements (s : Sequence) : s.elements.Tame := by
  cases s with
  | text chars => exact mapM (fun _ => alloc _) _
  | boxes items => exact pure _

end Tame

end HeapM

/-! ## Operators -/

/-- Comparing values fails only for its own reasons. -/
theorem Heap.plain_of_equal {h : Heap} {limit : Nat} {v u : Value} {stop : Stop}
    (failed : h.equal limit v u = .error stop) : stop.Plain := by
  have allM {γ : Type} {p : γ → Except Stop Bool} {xs : List γ} {stop : Stop}
      (each : ∀ x stop, p x = .error stop → stop.Plain) (failed : xs.allM p = .error stop) :
      stop.Plain := by
    induction xs with
    | nil => cases failed
    | cons x xs ih =>
      rw [List.allM] at failed
      rcases first : p x with stop' | _ | _
      · rw [first] at failed
        cases failed
        exact each x _ first
      · rw [first] at failed
        cases failed
      · rw [first] at failed
        exact ih failed
  induction limit generalizing v u stop with
  | zero =>
    cases failed
    trivial
  | succ limit ih =>
    unfold Heap.equal at failed
    split at failed
    case h_6 =>
      dsimp only at failed
      split at failed
      · cases failed
      · exact allM (fun e _ stopped => ih stopped) failed
    case h_7 =>
      dsimp only at failed
      split at failed
      · cases failed
      · refine allM (fun e _ stopped => ?_) failed
        split at stopped
        · exact ih stopped
        · cases stopped
    case h_8 =>
      dsimp only at failed
      split at failed
      · cases failed
      · refine allM (fun e _ stopped => ?_) failed
        split at stopped
        · exact ih stopped
        · cases stopped
          exact Stop.plain_ofCause rfl
    all_goals cases failed

theorem Integer.plain_of_compute? {op : BinaryOp} {a b : Int64} {cause : Cause}
    (failed : compute? op a b = some (.error cause)) : cause.isJump = false := by
  cases op with
  | div | mod =>
    rw [compute?] at failed
    split at failed
    · cases failed
      rfl
    · next nonzero =>
      simp only [quotient, remainder, if_neg nonzero] at failed
      cases failed
  | shiftLeft =>
    rw [compute?] at failed
    split at failed
    · cases failed
      rfl
    · split at failed <;> cases failed
  | shiftRight =>
    rw [compute?] at failed
    split at failed
    · cases failed
      rfl
    · cases failed
  | _ => cases failed

theorem BinaryOp.plain_of_floats? {op : BinaryOp} {a b : Float} {cause : Cause}
    (failed : op.floats? a b = some (.error cause)) : cause.isJump = false := by
  cases op with
  | div =>
    rw [floats?] at failed
    split at failed
    · cases failed
      rfl
    · cases failed
  | _ => cases failed

namespace HeapM.Tame

variable {α : Type}

theorem ofCause {result : Except Cause α} (plain : ∀ cause, result = .error cause → cause.isJump = false) :
    (HeapM.ofCause result).Tame := by
  cases result with
  | ok x => exact pure x
  | error cause => exact raise (plain cause rfl)

theorem answerEqual (limit : Nat) (v u : Value) : (answer fun h => h.equal limit v u).Tame :=
  get.bind fun _ => ofExcept fun _ failed => Heap.plain_of_equal failed

theorem onFloats (op : BinaryOp) (l r : Value) (a b : Float) : (match op.floats? a b with
    | some result => do return Value.float (← HeapM.ofCause result)
    | none => invalidOperands op.text l r : HeapM Value).Tame := by
  split
  · next computed =>
    refine (ofCause ?_).bind fun _ => pure _
    rintro cause rfl
    exact BinaryOp.plain_of_floats? computed
  · exact raise rfl

theorem compute (op : BinaryOp) (l r : Value) : (op.compute l r).Tame := by
  unfold BinaryOp.compute
  dsimp only
  split
  · split
    · next computed =>
      refine (ofCause ?_).bind fun _ => pure _
      rintro cause rfl
      exact Integer.plain_of_compute? computed
    · exact raise rfl
  · exact onFloats op _ _ _ _
  · exact onFloats op _ _ _ _
  · exact onFloats op _ _ _ _
  · split
    · exact pure _
    · exact raise rfl
  · split
    · exact get.bind fun _ => (mapM copy _).bind fun _ => (allocList _).bind fun _ => pure _
    · exact raise rfl
  · exact raise rfl

theorem binary (limit : Nat) (op : BinaryOp) (l r : Value) : (op.apply limit l r).Tame := by
  unfold BinaryOp.apply
  split
  · exact (answerEqual limit l r).bind fun _ => pure _
  · exact (answerEqual limit l r).bind fun _ => pure _
  all_goals first | exact compute _ l r | skip
  all_goals
    split
    · exact pure _
    · exact raise rfl

theorem unary (op : UnaryOp) (v : Value) : (op.apply v).Tame := by
  unfold UnaryOp.apply
  split
  case h_5 => exact get.bind fun _ => pure _
  case h_7 => exact raise rfl
  all_goals exact pure _

/-! ## The module `math` -/

theorem number (v : Value) : (Math.number v).Tame := by
  rw [Math.number.eq_def]
  split
  · exact pure _
  · exact pure _
  · exact get.bind fun _ => raise rfl

theorem checked (b : Builtin) (result : Except MathFault α) : (Math.checked b result).Tame := by
  cases result with
  | ok x => exact pure x
  | error fault => exact raise rfl

theorem total (sum : Int) (values : List Value) : (Math.total sum values).Tame := by
  fun_induction Math.total sum values with
  | case1 sum => exact pure sum
  | case2 sum n rest ih => exact ih
  | case3 sum v rest => exact get.bind fun _ => raise rfl

theorem mathAdd (values : List Value) : (Math.add values).Tame := (total 0 values).bind fun _ => pure _

theorem mathSqrt (v : Value) : (Math.sqrt v).Tame :=
  (number v).bind fun _ => (checked _ _).bind fun _ => pure _

theorem mathFloor (v : Value) : (Math.floor v).Tame := by
  rw [Math.floor.eq_def]
  split
  · exact pure _
  · exact (number _).bind fun _ => (checked _ _).bind fun _ => pure _

theorem mathPow (v u : Value) : (Math.pow v u).Tame := by
  have onFloats : (do
      let x ← Math.number v
      let y ← Math.number u
      return Value.float (← Math.checked .mathPow (Math.powerFloat x y)) : HeapM Value).Tame :=
    (number v).bind fun _ => (number u).bind fun _ => (checked _ _).bind fun _ => pure _
  unfold Math.pow
  dsimp only
  split
  · split
    · exact pure _
    · exact onFloats
  · exact onFloats

end HeapM.Tame

/-! ## As steps -/

namespace Norms.Steps

open Eval

variable {α : Type} {N : Norms} {w : State}

theorem onHeap {act : HeapM α} (tame : act.Tame) : N.Steps false w (onHeap act) := by
  intro s _ sourced
  obtain ⟨same, plain⟩ := tame s.heap
  rw [onHeap_apply]
  have kept : s.Kept (s.withHeap (act s.heap).2) := .of_registry rfl
  refine ⟨kept, sourced.of_functions kept same, fun stop isStop => ?_⟩
  have stopped := plain stop isStop
  cases stop with
  | error e =>
    refine ⟨warrants_of_isJump stopped.2, fun l isPlace => ?_, fun impossible => by cases impossible⟩
    rw [stopped.1] at isPlace
    cases isPlace
  | crash => exact stopped.elim
  | exit | tooDeep | outOfFuel => trivial

/-- An operation that cannot fail is accounted for at any place. -/
theorem alloc {placed : Bool} (v : Value) : N.Steps placed w (alloc v) :=
  of_quiet fun _ => ⟨⟨_, rfl⟩, .of_registry rfl, rfl⟩

theorem write {placed : Bool} (b : BoxId) (v : Value) : N.Steps placed w (write b v) :=
  of_quiet fun _ => ⟨⟨_, rfl⟩, .of_registry rfl, rfl⟩

theorem copy {placed : Bool} (b : BoxId) : N.Steps placed w (copy b) :=
  of_quiet fun _ => ⟨⟨_, rfl⟩, .of_registry rfl, rfl⟩

theorem canonical (cfg : Config) (b : BoxId) : N.Steps false w (canonical cfg b) :=
  (read b).bind fun _ => onHeap (.bounded _)

theorem display (cfg : Config) (b : BoxId) : N.Steps false w (display cfg b) :=
  (read b).bind fun _ => onHeap (.bounded _)

/-- Defining a function that was written in a loaded text. -/
theorem allocFunction {f : Function} (admitted : N.Admits w f) :
    N.Steps false w (Eval.onHeap (HeapM.allocFunction f)) := by
  intro s kept sourced
  have kept' : s.Kept (Eval.onHeap (HeapM.allocFunction f) s).2 := .of_registry rfl
  refine ⟨kept', fun id => ?_, fun stop isStop => by cases isStop⟩
  change N.Admits _ ((s.heap.functions.push f).getD id.index default)
  rw [Array.getD_eq_getD_getElem?, Array.getElem?_push]
  split
  · exact admitted.mono (kept.trans kept')
  · rw [← Array.getD_eq_getD_getElem?]
    exact (sourced id).mono kept'

end Norms.Steps

end Shiba

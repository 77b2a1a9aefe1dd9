import Shiba.Builtin.Call
import Shiba.Operator.Apply
import Shiba.Proofs.Zones.Data

/-!
# Operators and functions that come with the language

Most of them only read, and answer a value that refers to nothing (`Eval.Looks`, `Value.Scalar`).  Adding
lists makes a new list of copies, `keys` answers deep copies, and `delete` changes a live dictionary.

`Guarded.Safe.binaryApply`, `Guarded.Safe.unaryApply` and `Guarded.Safe.builtinCall` are the rules.
-/

namespace Shiba

/-- A value that refers to nothing. -/
def Value.Scalar : Value → Prop
  | .nil | .bool _ | .int _ | .float _ | .str _ => True
  | _ => False

theorem Guarded.fit_scalar {P : Policy} {σ : Guarded P} {z : Zone} {v : Value} (scalar : v.Scalar) :
    σ.Fit z v := by
  cases v with
  | nil | bool | int | float | str => exact ⟨trivial, trivial⟩
  | list | dict | struct | function | method | builtin | module | structDef => cases scalar

/-! ## Steps that only read -/

namespace Eval.Looks

variable {α : Type} {Q : α → Prop}

theorem invalidOperands (op : String) (l r : Value) :
    Looks (onHeap (HeapM.invalidOperands op l r)) Q := by
  rw [HeapM.invalidOperands, onHeap_raise]
  exact raise

theorem ofCause (result : Except Cause α) :
    Looks (onHeap (HeapM.ofCause result)) fun _ => True := by
  cases result with
  | ok x =>
    rw [HeapM.ofCause, onHeap_pure]
    exact pure trivial
  | error cause =>
    rw [HeapM.ofCause, onHeap_raise]
    exact raise

theorem typeMismatch (expected : String) (b : BoxId) :
    Looks (do Eval.raise (.typeMismatch expected (← Eval.typeName b)) : Eval α) Q :=
  bind (typeName b) fun _ _ => raise

/-- A result on floats is a float. -/
theorem onFloats (op : BinaryOp) (a b : Float) (l r : Value) :
    Looks (onHeap (match op.floats? a b with
      | some result => return .float (← HeapM.ofCause result)
      | none => HeapM.invalidOperands op.text l r)) Value.Scalar := by
  cases op.floats? a b with
  | none => exact invalidOperands op.text l r
  | some result =>
    simp only [onHeap_bind, onHeap_pure]
    exact bind (ofCause result) fun _ _ => pure trivial

theorem unaryApply (op : UnaryOp) (v : Value) : Looks (onHeap (op.apply v)) Value.Scalar := by
  unfold UnaryOp.apply
  split
  case h_5 =>
    rw [onHeap_get_bind]
    exact get_bind fun _ => pure trivial
  case h_7 =>
    rw [onHeap_raise]
    exact raise
  all_goals
    rw [onHeap_pure]
    exact pure trivial

/-! ### The module `math` -/

theorem number (v : Value) : Looks (onHeap (Math.number v)) fun _ => True := by
  unfold Math.number
  split
  · rw [onHeap_pure]
    exact pure trivial
  · rw [onHeap_pure]
    exact pure trivial
  · rw [onHeap_get_bind]
    refine get_bind fun s => ?_
    rw [onHeap_raise]
    exact raise

theorem checked (b : Builtin) (result : Except MathFault α) :
    Looks (onHeap (Math.checked b result)) fun _ => True := by
  cases result with
  | ok x =>
    rw [Math.checked, onHeap_pure]
    exact pure trivial
  | error fault =>
    rw [Math.checked, onHeap_raise]
    exact raise

theorem total (values : List Value) (sum : Int) :
    Looks (onHeap (Math.total sum values)) fun _ => True := by
  induction values generalizing sum with
  | nil =>
    rw [Math.total, onHeap_pure]
    exact pure trivial
  | cons v values ih =>
    unfold Math.total
    split
    · next none => cases none
    · next n rest whole =>
      cases whole
      exact ih _
    · rw [onHeap_get_bind]
      refine get_bind fun s => ?_
      rw [onHeap_raise]
      exact raise

theorem mathSqrt (v : Value) : Looks (onHeap (Math.sqrt v)) Value.Scalar := by
  simp only [Math.sqrt, onHeap_bind, onHeap_pure]
  exact bind (number v) fun _ _ => bind (checked _ _) fun _ _ => pure trivial

theorem mathFloor (v : Value) : Looks (onHeap (Math.floor v)) Value.Scalar := by
  unfold Math.floor
  split
  · rw [onHeap_pure]
    exact pure trivial
  · simp only [onHeap_bind, onHeap_pure]
    exact bind (number _) fun _ _ => bind (checked _ _) fun _ _ => pure trivial

theorem mathPow (v u : Value) : Looks (onHeap (Math.pow v u)) Value.Scalar := by
  have powers : Looks
      (onHeap do
        let x ← Math.number v
        let y ← Math.number u
        return .float (← Math.checked .mathPow (Math.powerFloat x y))) Value.Scalar := by
    simp only [onHeap_bind, onHeap_pure]
    exact bind (number v) fun _ _ => bind (number u) fun _ _ => bind (checked _ _) fun _ _ => pure trivial
  unfold Math.pow
  dsimp only
  split
  · split
    · rw [onHeap_pure]
      exact pure trivial
    · exact powers
  · exact powers

/-! ### The other functions -/

theorem length (b : BoxId) : Looks (Builtin.length b) Value.Scalar := by
  refine get_bind fun s => ?_
  dsimp only
  split
  · exact pure trivial
  · exact pure trivial
  · exact pure trivial
  · exact raise

theorem exitWith (b : BoxId) : Looks (Builtin.exitWith b) Value.Scalar := by
  refine get_bind fun s => ?_
  split
  · exact throw
  · exact typeMismatch "i64" b

end Eval.Looks

namespace Guarded.Safe

open Eval

variable {P : Policy} {σ τ : Guarded P} {α β : Type} {R : β → Guarded P → Prop}

/-- A step that only reads, and answers a value that refers to nothing. -/
theorem scalar {a : Eval Value} {z : Zone} (looks : Looks a Value.Scalar) :
    σ.Safe a a fun v τ => τ.Fit z v := by
  apply (look looks).mono
  rintro v τ - ⟨rfl, scalar⟩
  exact fit_scalar scalar

/-! ## Operators -/

theorem compute {l r : Value} (op : BinaryOp) (left : σ.Fit .live l) (right : σ.Fit .live r) :
    σ.Safe (onHeap (op.compute l r)) (onHeap (op.compute l r)) fun v τ => τ.Fit .live v := by
  unfold BinaryOp.compute
  dsimp only
  split
  · next a b =>
    cases Integer.compute? op a b with
    | none => exact scalar (.invalidOperands op.text _ _)
    | some result =>
      simp only [onHeap_bind, onHeap_pure]
      exact scalar (.bind (.ofCause result) fun _ _ => .pure trivial)
  · exact scalar (.onFloats op _ _ _ _)
  · exact scalar (.onFloats op _ _ _ _)
  · exact scalar (.onFloats op _ _ _ _)
  · split
    · rw [onHeap_pure]
      exact scalar (.pure trivial)
    · exact scalar (.invalidOperands op.text _ _)
  · split
    · rw [onHeap_get_bind]
      simp only [onHeap_bind, onHeap_mapM, onHeap_pure]
      apply get_bind
      refine copyList fun b member => ?_
      rcases Array.mem_append.1 (Array.mem_toList_iff.1 member) with first | second
      · exact elements_items left b first
      · exact elements_items right b second
    · exact scalar (.invalidOperands op.text _ _)
  · exact scalar (.invalidOperands op.text _ _)

theorem binaryApply {l r : Value} (limit : Nat) (op : BinaryOp) (left : σ.Fit .live l)
    (right : σ.Fit .live r) :
    σ.Safe (onHeap (op.apply limit l r)) (onHeap (op.apply limit l r)) fun v τ => τ.Fit .live v := by
  cases op with
  | equal | notEqual =>
    simp only [BinaryOp.apply, onHeap_bind, onHeap_pure]
    exact scalar (.bind (.answer _) fun _ _ => .pure trivial)
  | less | lessEqual | greater | greaterEqual =>
    rw [BinaryOp.apply]
    split
    · rw [onHeap_pure]
      exact scalar (.pure trivial)
    · exact scalar (.invalidOperands _ l r)
  | and | or =>
    unfold BinaryOp.apply
    dsimp only
    split
    · rw [onHeap_pure]
      exact scalar (.pure trivial)
    · exact scalar (.invalidOperands _ l r)
  | add | sub | mul | div | mod | bitAnd | bitOr | bitXor | shiftLeft | shiftRight =>
    unfold BinaryOp.apply
    exact compute _ left right

theorem unaryApply (op : UnaryOp) (v : Value) :
    σ.Safe (onHeap (op.apply v)) (onHeap (op.apply v)) fun u τ => τ.Fit .live u :=
  scalar (.unaryApply op v)

/-! ## Functions -/

theorem dictionary_bind {b : BoxId} {f₁ f₂ : DictId → Eval β} (seen : σ.Seen b)
    (rest : ∀ d, σ.Fit .live (.dict d) → σ.Safe (f₁ d) (f₂ d) R) :
    σ.Safe (Builtin.dictionary b >>= f₁) (Builtin.dictionary b >>= f₂) R := by
  rw [Builtin.dictionary, bind_assoc, bind_assoc]
  apply read_bind b
  cases holds : σ.state.heap.value b with
  | dict d => exact rest d (holds ▸ seen.fit)
  | nil | bool | int | float | str | list | struct | function | method | builtin | module | structDef =>
    exact bind (look (.typeMismatch (Q := fun _ => False) "dict" b)) fun _ _ _ never => never.2.elim

/-- The keys of a dictionary are handed out as deep copies. -/
theorem keyList {b : BoxId} (seen : σ.Seen b) :
    σ.Safe (Builtin.keyList P.config b) (Builtin.keyList P.config b) fun v τ => τ.Fit .live v := by
  apply dictionary_bind seen
  intro d fit
  apply get_bind
  simp only [onHeap_bind, onHeap_mapM, onHeap_pure]
  apply bind (mapM_all (S := fun τ c => τ.In .live c) _ (fun later inside => inside.mono later) ?_)
  · intro copies τ _ copied
    apply bind (allocList Zone.live_ne_old fun c member => copied.2 c (List.mem_toArray.1 member))
    intro l υ _ made
    exact pure made
  · intro key member τ later
    obtain ⟨e, listed, rfl⟩ := List.mem_map.1 member
    have kept := (in_entries fit.2 e listed).1.mono later
    have source : τ.SourceBox e.key := .inl ⟨.kept, Zone.kept_ne_old, kept⟩
    exact (clone P.limit source.source Zone.live_ne_old).mono fun _ _ _ after => after.1

theorem deleteKey {b key : BoxId} (seen : σ.Seen b) :
    σ.Safe (Builtin.deleteKey P.config b key) (Builtin.deleteKey P.config b key) fun v τ =>
      τ.Fit .live v := by
  apply dictionary_bind seen
  intro d fit
  rw [onHeap_bind]
  apply bind (dictDelete fit P.limit)
  intro found τ _ _
  cases found with
  | true =>
    simp only [if_true, onHeap_pure]
    exact pure (fit_scalar trivial)
  | false => exact keyNotFound

theorem printed (text : String) :
    σ.Safe (Eval.print text >>= fun _ => Pure.pure Value.nil)
      (Eval.print text >>= fun _ => Pure.pure Value.nil) fun v τ => τ.Fit .live v :=
  bind (print text) fun _ _ _ _ => pure (fit_scalar trivial)

theorem perform (f : Builtin) {args : List BoxId} (seen : ∀ b ∈ args, σ.Seen b) :
    σ.Safe (f.perform P.config args) (f.perform P.config args) fun v τ => τ.Fit .live v := by
  unfold Builtin.perform
  split
  · apply look_bind (.mapM (.display P.config) args)
    intro texts _
    exact printed _
  · exact scalar (.length _)
  · exact scalar (.exitWith _)
  · apply get_bind
    apply look_bind (.bounded _)
    intro text _
    exact printed _
  · exact keyList (seen _ List.mem_cons_self)
  · exact deleteKey (seen _ List.mem_cons_self)
  · exact scalar (.bind (.typeName _) fun _ _ => .pure trivial)
  · exact scalar (.bind (.display P.config _) fun _ _ => .pure trivial)
  · have reads : ∀ b, Looks (Eval.read b) fun _ => True := fun b => .get_bind fun _ => .pure trivial
    apply look_bind (.mapM reads args)
    intro values _
    simp only [Math.add, onHeap_bind, onHeap_pure]
    exact scalar (.bind (.total values 0) fun _ _ => .pure trivial)
  · apply read_bind
    exact scalar (.mathSqrt _)
  · apply read_bind
    exact scalar (.mathFloor _)
  · apply read_bind
    apply read_bind
    exact scalar (.mathPow _ _)
  · exact raise

/-- The arguments of a call are shown when calls are traced. -/
theorem traceCall (args : List BoxId) (text : List String → Eval String)
    (reads : ∀ shown, (text shown).Looks fun _ => True) :
    σ.Safe (Eval.trace P.config 3 (args.mapM (Eval.canonical P.config) >>= text))
      (Eval.trace P.config 3 (args.mapM (Eval.canonical P.config) >>= text)) fun _ _ => True :=
  trace P.config 3 (.bind (.mapM (.canonical P.config) args) fun shown _ => reads shown)

theorem builtinCall (f : Builtin) {args : List BoxId} (seen : ∀ b ∈ args, σ.Seen b) :
    σ.Safe (f.call P.config args) (f.call P.config args) fun b τ => τ.In .live b := by
  have called : σ.Safe
      (do
        Eval.trace P.config 3 do
          let shown ← args.mapM (Eval.canonical P.config)
          return "call builtin " ++ f.name ++ "(" ++ ", ".intercalate shown ++ ")"
        Eval.alloc (← f.perform P.config args))
      (do
        Eval.trace P.config 3 do
          let shown ← args.mapM (Eval.canonical P.config)
          return "call builtin " ++ f.name ++ "(" ++ ", ".intercalate shown ++ ")"
        Eval.alloc (← f.perform P.config args)) fun b τ => τ.In .live b := by
    apply bind (traceCall args _ fun _ => .pure trivial)
    intro _ τ later _
    apply bind (perform f fun b member => (seen b member).mono later)
    intro v υ _ fit
    exact alloc fit
  unfold Builtin.call
  split
  · split
    · exact raise
    · exact called
  · exact called

end Guarded.Safe

end Shiba

import Shiba.Proofs.Lockstep.Rules
import Shiba.Proofs.Zones.Basic

/-!
# Steps that keep to their zones

A step is safe when it leads from a guarded state to a later one, however it ends.  Two steps are looked
at side by side from one state, and they end alike: that is what lets a statement about whole runs be
turned into one about the states inside them.

* `Guarded.Safe` is the notion, with one rule for every way steps are put together.
* `Eval.Looks`: a step that only reads, with what is known of its answer.  The rules for steps that
  change something follow; each says where the boxes lie that it answers.
-/

namespace Shiba

/-! ## Steps that only read -/

namespace Eval

variable {α β : Type}

/-- A step leaves the state as it is, and something holds of what it answers. -/
def Looks (a : Eval α) (Q : α → Prop) : Prop := ∀ s, (a s).2 = s ∧ ∀ x, (a s).1 = .ok x → Q x

namespace Looks

variable {a : Eval α} {f : α → Eval β} {P Q : α → Prop} {R : β → Prop}

theorem pure {x : α} (here : Q x) : Looks (Pure.pure x) Q := by
  refine fun s => ⟨rfl, ?_⟩
  rintro y ⟨⟩
  exact here

theorem throw {stop : Stop} : Looks (throw stop : Eval α) Q := fun _ => ⟨rfl, nofun⟩

theorem raise {cause : Cause} : Looks (Eval.raise cause : Eval α) Q := throw

theorem bind (first : Looks a P) (rest : ∀ x, P x → Looks (f x) R) : Looks (a >>= f) R := by
  intro s
  obtain ⟨same, answers⟩ := first s
  rcases run : a s with ⟨result, t⟩
  rw [run] at same answers
  subst same
  cases result with
  | ok x =>
    rw [bind_ok run]
    exact rest x (answers x rfl) t
  | error stop =>
    rw [bind_error run]
    exact ⟨rfl, nofun⟩

theorem get_bind {f : State → Eval β} (rest : ∀ s, Looks (f s) R) : Looks (get >>= f) R :=
  fun s => rest s s

theorem bounded (f : Heap → Option α) : Looks (onHeap (HeapM.bounded f)) fun _ => True := by
  rw [HeapM.bounded, onHeap_get_bind]
  refine get_bind fun s => ?_
  cases f s.heap with
  | none =>
    rw [onHeap_throw]
    exact throw
  | some x =>
    rw [onHeap_pure]
    exact pure trivial

theorem answer (f : Heap → Except Stop α) : Looks (onHeap (HeapM.answer f)) fun _ => True := by
  rw [HeapM.answer, onHeap_get_bind]
  refine get_bind fun s => ?_
  cases f s.heap with
  | ok x => exact pure trivial
  | error stop => exact throw

theorem typeName (b : BoxId) : Looks (Eval.typeName b) fun _ => True :=
  get_bind fun _ => pure trivial

theorem canonical (cfg : Config) (b : BoxId) : Looks (Eval.canonical cfg b) fun _ => True :=
  get_bind fun _ => bounded _

theorem display (cfg : Config) (b : BoxId) : Looks (Eval.display cfg b) fun _ => True :=
  get_bind fun _ => bounded _

theorem mapM {f : α → Eval β} (each : ∀ x, Looks (f x) fun _ => True) (xs : List α) :
    Looks (xs.mapM f) fun _ => True := by
  induction xs with
  | nil => exact pure trivial
  | cons x xs ih =>
    rw [List.mapM_cons]
    exact bind (each x) fun y _ => bind ih fun ys _ => pure trivial

end Looks

end Eval

namespace Guarded

open Eval

variable {P : Policy} {σ τ : Guarded P} {α β : Type}

/-! ## Safe steps -/

/-- Two steps end alike, in a later guarded state, of which `Q` holds when they came to an end. -/
def Safe (σ : Guarded P) (a₁ a₂ : Eval α) (Q : α → Guarded P → Prop) : Prop :=
  ∃ result τ, a₁ σ.state = (result, τ.state) ∧ a₂ σ.state = (result, τ.state) ∧ σ.Later τ ∧
    ∀ x, result = .ok x → Q x τ

namespace Safe

variable {a₁ a₂ : Eval α} {f₁ f₂ : α → Eval β} {Q Q' : α → Guarded P → Prop}
  {R : β → Guarded P → Prop}

theorem of_run {x : α} (run₁ : a₁ σ.state = (.ok x, τ.state)) (run₂ : a₂ σ.state = (.ok x, τ.state))
    (later : σ.Later τ) (after : Q x τ) : σ.Safe a₁ a₂ Q := by
  refine ⟨.ok x, τ, run₁, run₂, later, ?_⟩
  rintro y ⟨⟩
  exact after

theorem pure {x : α} (here : Q x σ) : σ.Safe (Pure.pure x) (Pure.pure x) Q :=
  of_run rfl rfl (.refl σ) here

theorem throw {stop : Stop} : σ.Safe (throw stop : Eval α) (MonadExcept.throw stop) Q :=
  ⟨.error stop, σ, rfl, rfl, .refl σ, nofun⟩

theorem raise {cause : Cause} : σ.Safe (Eval.raise cause : Eval α) (Eval.raise cause) Q := throw

theorem bind (first : σ.Safe a₁ a₂ Q)
    (rest : ∀ x τ, σ.Later τ → Q x τ → τ.Safe (f₁ x) (f₂ x) R) :
    σ.Safe (a₁ >>= f₁) (a₂ >>= f₂) R := by
  rcases first with ⟨result, τ, run₁, run₂, later, after⟩
  cases result with
  | ok x =>
    obtain ⟨result, υ, run₁', run₂', later', after'⟩ := rest x τ later (after x rfl)
    refine ⟨result, υ, ?_, ?_, later.trans later', after'⟩
    · rw [bind_ok run₁, run₁']
    · rw [bind_ok run₂, run₂']
  | error stop => exact ⟨.error stop, τ, bind_error run₁, bind_error run₂, later, nofun⟩

theorem mono (safe : σ.Safe a₁ a₂ Q) (weaker : ∀ x τ, σ.Later τ → Q x τ → Q' x τ) :
    σ.Safe a₁ a₂ Q' := by
  rcases safe with ⟨result, τ, run₁, run₂, later, after⟩
  exact ⟨result, τ, run₁, run₂, later, fun x answered => weaker x τ later (after x answered)⟩

theorem get_bind {f₁ f₂ : State → Eval β} (rest : σ.Safe (f₁ σ.state) (f₂ σ.state) R) :
    σ.Safe (get >>= f₁) (get >>= f₂) R := rest

/-- A step that only reads. -/
theorem look {a : Eval α} {S : α → Prop} (looks : Looks a S) : σ.Safe a a fun x τ => τ = σ ∧ S x := by
  have ⟨same, answers⟩ := looks σ.state
  have run : a σ.state = ((a σ.state).1, σ.state) := Prod.ext rfl same
  exact ⟨(a σ.state).1, σ, run, run, .refl σ, fun x answered => ⟨rfl, answers x answered⟩⟩

/-- What follows a step that only reads runs in the state there was. -/
theorem look_bind {a : Eval α} {S : α → Prop} (looks : Looks a S)
    (rest : ∀ x, S x → σ.Safe (f₁ x) (f₂ x) R) : σ.Safe (a >>= f₁) (a >>= f₂) R := by
  apply bind (look looks)
  rintro x τ _ ⟨rfl, here⟩
  exact rest x here

theorem read_bind {f₁ f₂ : Value → Eval β} (b : BoxId)
    (rest : σ.Safe (f₁ (σ.state.heap.value b)) (f₂ (σ.state.heap.value b)) R) :
    σ.Safe (Eval.read b >>= f₁) (Eval.read b >>= f₂) R := rest

/-- A place is given to an error when the steps have ended. -/
theorem located {m : ModuleId} {p : Position} (safe : σ.Safe a₁ a₂ Q) :
    σ.Safe (Eval.located m p a₁) (Eval.located m p a₂) Q := by
  rcases safe with ⟨result, τ, run₁, run₂, later, after⟩
  cases result with
  | ok x =>
    refine ⟨.ok x, τ, ?_, ?_, later, after⟩
    · rw [Eval.located, run₁]
    · rw [Eval.located, run₂]
  | error stop =>
    refine ⟨.error (stop.locate ⟨(τ.state.registry.module m).name, p⟩), τ, ?_, ?_, later, ?_⟩
    · rw [Eval.located, run₁]
    · rw [Eval.located, run₂]
    · intro x answered
      cases answered

theorem raiseAt_bind {m : ModuleId} {p : Position} {cause : Cause} :
    σ.Safe (Eval.raiseAt m p cause >>= f₁) (Eval.raiseAt m p cause >>= f₂) R :=
  bind (located (raise (Q := fun _ _ => False))) fun _ _ _ never => never.elim

/-- A step that is watched answers how it went. -/
theorem observe (safe : σ.Safe a₁ a₂ Q) :
    σ.Safe (Eval.observe a₁) (Eval.observe a₂) fun result τ => ∀ x, result = .ok x → Q x τ := by
  rcases safe with ⟨result, τ, run₁, run₂, later, after⟩
  refine of_run ?_ ?_ later after
  · rw [Eval.observe, run₁]
  · rw [Eval.observe, run₂]

/-- Steps for the elements of a list, with a relation that lasts. -/
theorem mapM {S : Guarded P → α → β → Prop} (xs : List α)
    (stable : ∀ {τ υ : Guarded P} {x y}, τ.Later υ → S τ x y → S υ x y)
    (each : ∀ x ∈ xs, ∀ τ, σ.Later τ → τ.Safe (f₁ x) (f₂ x) fun y υ => S υ x y) :
    σ.Safe (xs.mapM f₁) (xs.mapM f₂) fun ys τ => List.Forall₂ (S τ) xs ys := by
  induction xs generalizing σ with
  | nil => exact pure .nil
  | cons x xs ih =>
    have ⟨here, rest⟩ := List.forall_mem_cons.1 each
    rw [List.mapM_cons, List.mapM_cons]
    apply bind (here σ (.refl σ))
    intro y τ later done
    apply bind (ih fun x' member υ later' => rest x' member υ (later.trans later'))
    intro ys υ later' others
    exact pure (.cons (stable later' done) others)

/-- Steps that each answer something of one kind. -/
theorem mapM_all {S : Guarded P → β → Prop} (xs : List α)
    (stable : ∀ {τ υ : Guarded P} {y}, τ.Later υ → S τ y → S υ y)
    (each : ∀ x ∈ xs, ∀ τ, σ.Later τ → τ.Safe (f₁ x) (f₂ x) fun y υ => S υ y) :
    σ.Safe (xs.mapM f₁) (xs.mapM f₂) fun ys τ => ys.length = xs.length ∧ ∀ y ∈ ys, S τ y := by
  apply (mapM (S := fun τ _ y => S τ y) xs stable each).mono
  intro ys τ _ related
  refine ⟨related.length_eq.symm, fun y member => ?_⟩
  obtain ⟨_, -, here⟩ := Heap.exists_of_mem related.flip member
  exact here

theorem forM {f₁ f₂ : α → Eval Unit} (xs : List α)
    (each : ∀ x ∈ xs, ∀ τ, σ.Later τ → τ.Safe (f₁ x) (f₂ x) fun _ _ => True) :
    σ.Safe (xs.forM f₁) (xs.forM f₂) fun _ _ => True := by
  induction xs generalizing σ with
  | nil => exact pure trivial
  | cons x xs ih =>
    have ⟨here, rest⟩ := List.forall_mem_cons.1 each
    change σ.Safe (f₁ x >>= fun _ => xs.forM f₁) (f₂ x >>= fun _ => xs.forM f₂) _
    apply bind (here σ (.refl σ))
    intro _ τ later _
    exact ih fun x' member υ later' => rest x' member υ (later.trans later')

end Safe

end Guarded

end Shiba

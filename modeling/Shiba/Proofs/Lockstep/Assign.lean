import Shiba.Eval.Assign
import Shiba.Proofs.Heap.Operators
import Shiba.Proofs.Lockstep.Expr

/-!
# Contracts of assignments

An assignment takes copies in hand and gives each of them away once: it is bound, filed, or its value
is written into the box that is there.  Only boxes in slots are written: neither those in hand nor those
of the functions visible everywhere, because `place` does not look among them.
-/

namespace Shiba

/-- The operator of a computing assignment leaves what is in a slot there. -/
theorem State.Stored.of_apply {s t : State} {b : BoxId} {limit : Nat} {l r v : Value} (stored : s.Stored b)
    (op : ComputeOp) (run : Eval.onHeap (op.binary.apply limit l r) s = (.ok v, t)) : t.Stored b := by
  rw [Eval.onHeap_apply] at run
  rcases op.apply_run limit l r s.heap with ⟨v', h, applied, grown⟩ | ⟨cause, applied⟩
  · rw [applied] at run
    cases run
    exact stored.withHeap grown
  · rw [applied] at run
    cases run

namespace Discipline.Agree

open Eval

variable {D : Discipline} {w : D.World} {H K : Multiset BoxId} {s₁ s₂ : State}
  {ev₁ ev₂ : Evaluators} {cfg : Config} {ctx : Context}

/-! ## Places -/

theorem element (holds : D.Holds w H s₁ s₂) (container key : BoxId) :
    D.Agree w s₁ s₂ (Eval.element container key) (Eval.element container key) fun b t₁ t₂ =>
      D.Holds w H t₁ t₂ ∧ t₁.Stored b := by
  apply get_bind
  rw [holds.alike.heap]
  dsimp only
  split
  · exact raise holds nofun
  · next l _ =>
    apply find_bind (indexValue holds key _)
    intro i inside
    exact itemIndex holds inside
  · exact raise holds nofun

theorem memberBox (holds : D.Holds w H s₁ s₂) (owner : BoxId) (name : String) :
    D.Agree w s₁ s₂ (Eval.memberBox owner name) (Eval.memberBox owner name) fun b t₁ t₂ =>
      D.Holds w H t₁ t₂ ∧ t₁.Stored b := by
  have valid := holds.wf.valid_value owner
  apply get_bind
  rw [holds.alike.heap]
  dsimp only
  split
  · next m moduleName isModule =>
    rw [isModule] at valid
    apply find_bind (getObj? holds valid name)
    intro found stored
    cases found with
    | some b => exact pure b ⟨holds, stored b rfl⟩
    | none => exact raise holds nofun
  · next i isStruct =>
    rw [isStruct] at valid
    split
    · next b found => exact pure b ⟨holds, .field (OrderedMap.mem_values_of_get? found)⟩
    · exact raise holds nofun
  · exact raise holds nofun

/-- The box of a target is in a slot. -/
theorem place (contract : D.Contract ev₁ ev₂) (holds : D.Holds w H s₁ s₂)
    (here : D.Here w s₁ ctx.module) (target : Expr) :
    D.Agree w s₁ s₂ (Eval.place ev₁ cfg ctx target) (Eval.place ev₂ cfg ctx target) fun b t₁ t₂ =>
      D.Holds w H t₁ t₂ ∧ t₁.Stored b := by
  apply located
  cases target with
  | ident p name =>
    apply find_bind (getObj? holds here.module name)
    intro found stored
    cases found with
    | some b => exact pure b ⟨holds, stored b rfl⟩
    | none => exact raise holds nofun
  | index p container key =>
    apply bind (contract.expr ctx container holds here)
    intro c t₁ t₂ grew ended
    obtain ⟨after, -⟩ := ended
    apply bind (contract.expr ctx key after (here.mono grew))
    intro k u₁ u₂ _ ended
    obtain ⟨after', -⟩ := ended
    apply read_bind after' c
    split
    · exact dictEntry after' _ c k
    · exact element after' c k
  | select p owner name =>
    apply bind (contract.expr ctx owner holds here)
    intro o t₁ t₂ _ ended
    obtain ⟨after, -⟩ := ended
    exact memberBox after o name
  | slice | literal | list | dict | unary | binary | structInit | call => exact raise holds nofun

/-! ## Assignments -/

/-- The value of a box in hand is written into a box in a slot. -/
theorem writeValue {b value : BoxId} (holds : D.Holds w (value ::ₘ H) s₁ s₂) (stored : s₁.Stored b) :
    D.Agree w s₁ s₂ (do Eval.write b (← Eval.read value)) (do Eval.write b (← Eval.read value))
      fun _ t₁ t₂ => D.Holds w H t₁ t₂ := by
  apply read_bind holds value
  apply (write holds stored (holds.wf.valid_value value)).mono
  intro _ t₁ t₂ _ after
  exact after.drop (Multiset.le_cons_self _ _)

/-- Assigning a box takes it out of hand. -/
theorem assignTo {value : BoxId} (contract : D.Contract ev₁ ev₂)
    (holds : D.Holds w (value ::ₘ H) s₁ s₂) (opened : D.OpenFor w s₁ ctx.module) (target : Expr) :
    D.Agree w s₁ s₂ (Eval.assignTo ev₁ cfg ctx target value) (Eval.assignTo ev₂ cfg ctx target value)
      fun _ t₁ t₂ => D.Holds w H t₁ t₂ := by
  have here := opened.here
  have placed : D.Agree w s₁ s₂
      (do Eval.write (← Eval.place ev₁ cfg ctx target) (← Eval.read value))
      (do Eval.write (← Eval.place ev₂ cfg ctx target) (← Eval.read value))
      fun _ t₁ t₂ => D.Holds w H t₁ t₂ := by
    apply bind (place contract holds here target)
    intro b t₁ t₂ _ ended
    obtain ⟨after, stored⟩ := ended
    exact writeValue after stored
  cases target with
  | ident p name =>
    apply find_bind (getObj? holds opened.module name)
    intro found stored
    cases found with
    | some b => exact writeValue holds (stored b rfl)
    | none => exact setObj holds opened name
  | index p container key =>
    apply bind (contract.expr ctx container holds here)
    intro c t₁ t₂ grew ended
    obtain ⟨after, -⟩ := ended
    apply bind (contract.expr ctx key after (here.mono grew))
    intro k u₁ u₂ _ ended
    obtain ⟨after', -⟩ := ended
    apply read_bind after' c
    split
    · next d _ =>
      apply find_bind (dictGet? after' cfg.dataLimit d k)
      intro found stored
      cases found with
      | some b => exact writeValue after' (stored b rfl)
      | none => exact dictSet after' cfg.dataLimit d k
    · apply bind (located p (element after' c k))
      intro b v₁ v₂ _ ended
      obtain ⟨last, stored⟩ := ended
      exact writeValue last stored
  | select | slice | literal | list | dict | unary | binary | structInit | call => exact placed

theorem assignAll (contract : D.Contract ev₁ ev₂) (targets : List Expr) :
    ∀ {s₁ s₂} (values : List BoxId), D.Holds w ((values : Multiset BoxId) + H) s₁ s₂ →
      D.OpenFor w s₁ ctx.module →
      D.Agree w s₁ s₂ (Eval.assignAll ev₁ cfg ctx targets values)
        (Eval.assignAll ev₂ cfg ctx targets values) fun _ t₁ t₂ => D.Holds w H t₁ t₂ := by
  induction targets with
  | nil =>
    intro s₁ s₂ values holds opened
    exact pure () (holds.drop (Multiset.le_add_left _ _))
  | cons target targets ih =>
    intro s₁ s₂ values holds opened
    cases values with
    | nil => exact pure () (holds.drop (Multiset.le_add_left _ _))
    | cons value values =>
      rw [← Multiset.cons_coe, Multiset.cons_add] at holds
      apply bind (assignTo contract holds opened target)
      intro _ t₁ t₂ grew after
      exact ih values after (opened.mono grew)

theorem assignPlain (contract : D.Contract ev₁ ev₂) (holds : D.Holds w H s₁ s₂)
    (opened : D.OpenFor w s₁ ctx.module) (left right : List Expr) :
    D.Agree w s₁ s₂ (Eval.assignPlain ev₁ cfg ctx left right)
      (Eval.assignPlain ev₂ cfg ctx left right) fun _ t₁ t₂ => D.Holds w H t₁ t₂ := by
  unfold Eval.assignPlain
  dsimp only
  split
  · exact raise_bind holds nofun
  · apply bind (copyEach contract holds opened.here right)
    intro values t₁ t₂ grew copied
    exact assignAll contract left values copied (opened.mono grew)

/-- The elements of a sequence are copied before the first of them is assigned. -/
theorem assignUnpack (contract : D.Contract ev₁ ev₂) (holds : D.Holds w H s₁ s₂)
    (opened : D.OpenFor w s₁ ctx.module) (left right : List Expr) :
    D.Agree w s₁ s₂ (Eval.assignUnpack ev₁ cfg ctx left right)
      (Eval.assignUnpack ev₂ cfg ctx left right) fun _ t₁ t₂ => D.Holds w H t₁ t₂ := by
  unfold Eval.assignUnpack
  split
  · next e =>
    apply bind (contract.expr ctx e holds opened.here)
    intro b t₁ t₂ grew ended
    obtain ⟨after, -⟩ := ended
    have opened' := opened.mono grew
    split
    · next target =>
      apply bind (copy after b)
      intro value u₁ u₂ grew' copied
      exact assignTo contract copied (opened'.mono grew') target
    · apply read_bind after b
      dsimp only
      split
      · apply look_bind (typeName after b)
        intro name
        exact raiseAt_bind after nofun
      · next isSequence =>
        apply find_bind (ofValue after (by simpa using isSequence))
        intro q _
        split
        · apply look_bind (canonical after cfg b)
          intro shown
          exact raise_bind after nofun
        · apply bind (elements after q)
          intro boxes u₁ u₂ grew' ended
          obtain ⟨listed, -⟩ := ended
          apply bind (copyAll listed boxes)
          intro values v₁ v₂ grew'' ended
          obtain ⟨copied, -⟩ := ended
          have later := grew'.trans grew''
          exact assignAll contract left values copied (opened'.mono later)
  · exact raise holds nofun

/-- Computing a new value for a box.  What the operator stops with is looked at, and the operator leaves
the box in its slot. -/
theorem updateBox {b : BoxId} (holds : D.Holds w H s₁ s₂) (stored : s₁.Stored b) (op : ComputeOp)
    (right : BoxId) :
    D.Agree w s₁ s₂ (Eval.updateBox cfg op b right) (Eval.updateBox cfg op b right)
      fun _ t₁ t₂ => D.Holds w H t₁ t₂ := by
  apply read_bind holds b
  apply read_bind holds right
  apply bind (observe (binaryApply holds cfg.dataLimit op.binary (holds.wf.valid_value b)
    (holds.wf.valid_value right)).and_run)
  intro result u₁ u₂ grew watched
  split
  · obtain ⟨⟨after, valid⟩, run⟩ := watched
    exact write after (stored.of_apply op run) valid
  · apply look_bind (typeName watched.1 b)
    intro name
    apply look_bind (typeName watched.1 right)
    intro name
    exact raise watched.1 nofun
  · exact throw watched.1 watched.2

theorem isUnbound (holds : D.Holds w H s₁ s₂) (here : D.Here w s₁ ctx.module) (target : Expr) :
    D.Agree w s₁ s₂ (Eval.isUnbound ctx target) (Eval.isUnbound ctx target) fun _ t₁ t₂ =>
      Unchanged s₁ s₂ t₁ t₂ := by
  unfold Eval.isUnbound
  split
  · next name =>
    apply find_bind (getObj? holds here.module name)
    intro found _
    cases found with
    | some b => exact pure _ ⟨rfl, rfl⟩
    | none => exact pure _ ⟨rfl, rfl⟩
  · exact pure _ ⟨rfl, rfl⟩

theorem assignCompute (contract : D.Contract ev₁ ev₂) (holds : D.Holds w H s₁ s₂)
    (opened : D.OpenFor w s₁ ctx.module) (op : ComputeOp)
    (left right : List Expr) :
    D.Agree w s₁ s₂ (Eval.assignCompute ev₁ cfg ctx op left right)
      (Eval.assignCompute ev₂ cfg ctx op left right) fun _ t₁ t₂ => D.Holds w H t₁ t₂ := by
  unfold Eval.assignCompute
  split
  · next target e =>
    apply bind (contract.expr ctx e holds opened.here)
    intro r t₁ t₂ grew ended
    obtain ⟨after, -⟩ := ended
    have opened' := opened.mono grew
    apply look_bind (isUnbound after opened'.here target)
    intro unbound
    cases unbound with
    | some name =>
      apply bind (copy after r)
      intro value u₁ u₂ grew' copied
      exact setObj copied (opened'.mono grew') name
    | none =>
      apply bind (place contract after opened'.here target)
      intro b u₁ u₂ _ ended
      obtain ⟨placed, stored⟩ := ended
      exact updateBox placed stored op r
  · exact raise holds nofun
  · exact raise holds nofun

/-- An assignment keeps a contract that its parts keep. -/
theorem assign (contract : D.Contract ev₁ ev₂) (holds : D.Holds w H s₁ s₂)
    (opened : D.OpenFor w s₁ ctx.module) (op : AssignOp)
    (left right : List Expr) :
    D.Agree w s₁ s₂ (Eval.assign ev₁ cfg ctx op left right) (Eval.assign ev₂ cfg ctx op left right)
      fun _ t₁ t₂ => D.Holds w H t₁ t₂ := by
  cases op with
  | plain => exact assignPlain contract holds opened left right
  | unpack => exact assignUnpack contract holds opened left right
  | compute op => exact assignCompute contract holds opened op left right

end Discipline.Agree

end Shiba

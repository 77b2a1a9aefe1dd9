import Shiba.Eval.Assign
import Shiba.Proofs.Zones.Expr

/-!
# Assignments and their zones

An assignment binds a live box, files it in a live dictionary, or writes into a live box.  The box of a
target is found among names, elements, entries and fields alone (`Guarded.Safe.place`), never among the
functions visible everywhere.
-/

namespace Shiba.Guarded.Safe

open Eval

variable {P : Policy} {σ τ : Guarded P} {ev₁ ev₂ : Evaluators} {ctx : Context}

/-! ## Places -/

theorem element {container key : BoxId} (seen : σ.Seen container) :
    σ.Safe (Eval.element container key) (Eval.element container key) fun b τ => τ.In .live b := by
  have fit := seen.fit
  apply get_bind
  dsimp only
  split
  · exact raise
  · next l isList =>
    rw [isList] at fit
    apply look_bind (looks_indexValue key _)
    intro i _
    exact sequenceIndex (q := .boxes _) (elements_items fit) i
  · exact raise

theorem memberBox {owner : BoxId} (full : P.full) (seen : σ.Seen owner) (name : String) :
    σ.Safe (Eval.memberBox owner name) (Eval.memberBox owner name) fun b τ => τ.In .live b := by
  have fit := seen.fit
  apply get_bind
  dsimp only
  split
  · next m moduleName isModule =>
    rw [isModule] at fit
    apply getObj?_bind (here_of_full full fit.1) ((P.whole full).1 name)
    intro found live
    cases found with
    | some b => exact pure (live b rfl)
    | none => exact raise
  · next i isStruct =>
    rw [isStruct] at fit
    split
    · next b found =>
      have listed := OrderedMap.mem_values_of_get? found
      exact pure ⟨((σ.wf.shaped fit.1).boxes b listed).2, (σ.fields i b listed).trans fit.2⟩
    · exact raise
  · exact raise

/-- The box of a target is live. -/
theorem place (contract : Contract P ev₁ ev₂) (here : σ.Here ctx.module) {target : Expr}
    (admitted : P.Admits target) :
    σ.Safe (Eval.place ev₁ P.config ctx target) (Eval.place ev₂ P.config ctx target) fun b τ =>
      τ.In .live b := by
  apply located
  cases target with
  | ident p name =>
    apply getObj?_bind here admitted.name
    intro found live
    cases found with
    | some b => exact pure (live b rfl)
    | none => exact raise
  | index p container key =>
    apply bind (contract.expr ctx here admitted.index.1)
    intro c τ later seen
    apply bind (contract.expr ctx (here.mono later) admitted.index.2)
    intro k υ later' _
    have seen' := seen.mono later'
    apply read_bind c
    split
    · next d isDict => exact dictEntry (isDict ▸ seen'.fit)
    · exact element seen'
  | select p owner name =>
    apply bind (contract.expr ctx here (.inl admitted.select))
    intro o τ _ seen
    exact memberBox admitted.select seen name
  | slice | literal | list | dict | unary | binary | structInit | call => exact raise

/-! ## Assignments -/

/-- The value of a live box is written into a live box. -/
theorem writeValue {b value : BoxId} (into : σ.In .live b) (live : σ.In .live value) :
    σ.Safe (do Eval.write b (← Eval.read value)) (do Eval.write b (← Eval.read value))
      fun _ _ => True := by
  apply read_bind value
  exact write into (fit_value live)

theorem assignTo {value : BoxId} (contract : Contract P ev₁ ev₂) (here : σ.Here ctx.module)
    {target : Expr} (admitted : P.Admits target) (live : σ.In .live value) :
    σ.Safe (Eval.assignTo ev₁ P.config ctx target value) (Eval.assignTo ev₂ P.config ctx target value)
      fun _ _ => True := by
  have placed : σ.Safe
      (do Eval.write (← Eval.place ev₁ P.config ctx target) (← Eval.read value))
      (do Eval.write (← Eval.place ev₂ P.config ctx target) (← Eval.read value)) fun _ _ => True := by
    apply bind (place contract here admitted)
    intro b τ later into
    exact writeValue into (live.mono later)
  cases target with
  | ident p name =>
    apply getObj?_bind here admitted.name
    intro found into
    cases found with
    | some b => exact writeValue (into b rfl) live
    | none => exact setObj here.module live name
  | index p container key =>
    apply bind (contract.expr ctx here admitted.index.1)
    intro c τ later seen
    apply bind (contract.expr ctx (here.mono later) admitted.index.2)
    intro k υ later' seenKey
    have seen' := seen.mono later'
    have live' := live.mono (later.trans later')
    apply read_bind c
    split
    · next d isDict =>
      have fit : υ.Fit .live (.dict d) := isDict ▸ seen'.fit
      apply dictGet?_bind fit
      intro found into
      cases found with
      | some b => exact writeValue (into b rfl) live'
      | none => exact dictSet fit seenKey.source live'
    · apply bind (located (element seen'))
      intro b φ later'' into
      exact writeValue into (live'.mono later'')
  | select | slice | literal | list | dict | unary | binary | structInit | call => exact placed

theorem assignAll (contract : Contract P ev₁ ev₂) (here : σ.Here ctx.module) {targets : List Expr}
    {values : List BoxId} (admitted : ∀ e ∈ targets, P.Admits e) (live : ∀ b ∈ values, σ.In .live b) :
    σ.Safe (Eval.assignAll ev₁ P.config ctx targets values)
      (Eval.assignAll ev₂ P.config ctx targets values) fun _ _ => True := by
  apply forM
  intro e member τ later
  have ⟨target, value⟩ := List.of_mem_zip member
  exact assignTo contract (here.mono later) (admitted e.1 target) ((live e.2 value).mono later)

theorem assignPlain (contract : Contract P ev₁ ev₂) (here : σ.Here ctx.module) {left right : List Expr}
    (targets : ∀ e ∈ left, P.Admits e) (values : ∀ e ∈ right, P.Admits e) :
    σ.Safe (Eval.assignPlain ev₁ P.config ctx left right) (Eval.assignPlain ev₂ P.config ctx left right)
      fun _ _ => True := by
  unfold Eval.assignPlain
  dsimp only
  split
  · exact raise
  · apply bind (copyEach contract here values)
    intro boxes τ later live
    exact assignAll contract (here.mono later) targets live

theorem assignUnpack (contract : Contract P ev₁ ev₂) (here : σ.Here ctx.module) {left right : List Expr}
    (targets : ∀ e ∈ left, P.Admits e) (values : ∀ e ∈ right, P.Admits e) :
    σ.Safe (Eval.assignUnpack ev₁ P.config ctx left right)
      (Eval.assignUnpack ev₂ P.config ctx left right) fun _ _ => True := by
  unfold Eval.assignUnpack
  split
  · next e =>
    apply bind (contract.expr ctx here (values e List.mem_cons_self))
    intro b τ later seen
    have here' := here.mono later
    split
    · next target =>
      apply bind (copy seen)
      intro value υ later' live
      exact assignTo contract (here'.mono later') (targets target List.mem_cons_self) live
    · apply read_bind b
      dsimp only
      split
      · apply look_bind (.typeName b)
        intro name _
        exact raiseAt_bind
      · apply ofValue_bind seen.fit
        intro q inside
        split
        · apply look_bind (.canonical P.config b)
          intro shown _
          exact raise
        · apply bind (elements inside)
          intro boxes υ later' live
          apply bind (copyAll live)
          intro copies φ later'' copied
          exact assignAll contract (here'.mono (later'.trans later'')) targets copied
  · exact raise

/-- Computing a new value for a live box. -/
theorem updateBox {b right : BoxId} (op : ComputeOp) (into : σ.In .live b) (seen : σ.Seen right) :
    σ.Safe (Eval.updateBox P.config op b right) (Eval.updateBox P.config op b right)
      fun _ _ => True := by
  apply read_bind b
  apply read_bind right
  apply bind (observe (binaryApply P.limit op.binary (fit_value into) seen.fit))
  intro result τ later ended
  split
  · next v => exact write (into.mono later) (ended v rfl)
  · apply look_bind (.typeName b)
    intro name _
    apply look_bind (.typeName right)
    intro name _
    exact raise
  · exact throw

theorem isUnbound_bind {target : Expr} {β : Type} {R : β → Guarded P → Prop}
    {f₁ f₂ : Option String → Eval β} (here : σ.Here ctx.module) (admitted : P.Admits target)
    (rest : ∀ unbound, σ.Safe (f₁ unbound) (f₂ unbound) R) :
    σ.Safe (Eval.isUnbound ctx target >>= f₁) (Eval.isUnbound ctx target >>= f₂) R := by
  unfold Eval.isUnbound
  split
  · rw [bind_assoc, bind_assoc]
    apply getObj?_bind here admitted.name
    intro found _
    cases found with
    | some b => exact rest none
    | none => exact rest _
  · exact rest none

theorem assignCompute (contract : Contract P ev₁ ev₂) (here : σ.Here ctx.module) (op : ComputeOp)
    {left right : List Expr} (targets : ∀ e ∈ left, P.Admits e) (values : ∀ e ∈ right, P.Admits e) :
    σ.Safe (Eval.assignCompute ev₁ P.config ctx op left right)
      (Eval.assignCompute ev₂ P.config ctx op left right) fun _ _ => True := by
  unfold Eval.assignCompute
  split
  · next target e =>
    have admitted := targets target List.mem_cons_self
    apply bind (contract.expr ctx here (values e List.mem_cons_self))
    intro r τ later seen
    have here' := here.mono later
    apply isUnbound_bind here' admitted
    intro unbound
    cases unbound with
    | some name =>
      apply bind (copy seen)
      intro value υ later' live
      exact setObj (here'.mono later').module live name
    | none =>
      apply bind (place contract here' admitted)
      intro b υ later' into
      exact updateBox op into (seen.mono later')
  · exact raise
  · exact raise

/-- An assignment keeps to its zones when its parts do. -/
theorem assign (contract : Contract P ev₁ ev₂) (here : σ.Here ctx.module) (op : AssignOp)
    {left right : List Expr} (targets : ∀ e ∈ left, P.Admits e) (values : ∀ e ∈ right, P.Admits e) :
    σ.Safe (Eval.assign ev₁ P.config ctx op left right) (Eval.assign ev₂ P.config ctx op left right)
      fun _ _ => True := by
  cases op with
  | plain => exact assignPlain contract here targets values
  | unpack => exact assignUnpack contract here targets values
  | compute op => exact assignCompute contract here op targets values

end Shiba.Guarded.Safe

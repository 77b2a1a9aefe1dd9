import Shiba.Eval.Expr
import Shiba.Proofs.Lockstep.Call

/-!
# Contracts of expressions

One rule for every form of expression: when the evaluators of the parts keep a
contract, so does the whole.  An expression takes nothing in hand, it leaves what was in hand as it
was; a box is in hand only between its allocation and the step that stores it.
-/

namespace Shiba.Discipline.Agree

open Eval

variable {D : Discipline} {w : D.World} {H K : Multiset BoxId} {s₁ s₂ : State}
  {ev₁ ev₂ : Evaluators} {cfg : Config} {ctx : Context}

/-! ## Names and operations -/

theorem literal (holds : D.Holds w H s₁ s₂) (value : Literal) :
    D.Agree w s₁ s₂ (Eval.literal value) (Eval.literal value) fun b t₁ t₂ =>
      D.Holds w H t₁ t₂ ∧ t₁.HasBox b := by
  cases value with
  | int n => exact allocFree (v := .int n) holds trivial
  | float x => exact allocFree (v := .float x) holds trivial
  | str text => exact allocFree (v := .str text) holds trivial
  | bool b => exact allocFree (v := .bool b) holds trivial

theorem ident (holds : D.Holds w H s₁ s₂) (here : D.Here w s₁ ctx.module) (name : String) :
    D.Agree w s₁ s₂ (Eval.ident ctx name) (Eval.ident ctx name) fun b t₁ t₂ =>
      D.Holds w H t₁ t₂ ∧ t₁.HasBox b := by
  apply member holds here.module name
  apply get_bind
  rw [holds.alike.builtins]
  split
  · next b found => exact pure b ⟨holds, holds.wf.has_builtin found⟩
  · exact raise holds nofun

theorem binary (contract : D.Contract ev₁ ev₂) (holds : D.Holds w H s₁ s₂)
    (here : D.Here w s₁ ctx.module) (op : BinaryOp) (left right : Expr) :
    D.Agree w s₁ s₂ (Eval.binary ev₁ cfg ctx op left right) (Eval.binary ev₂ cfg ctx op left right)
      fun b t₁ t₂ => D.Holds w H t₁ t₂ ∧ t₁.HasBox b := by
  apply bind (contract.expr ctx left holds here)
  intro l t₁ t₂ grew ended
  obtain ⟨after, -⟩ := ended
  apply read_bind after l
  split
  · exact allocFree after trivial
  · apply bind (contract.expr ctx right after (here.mono grew))
    intro r u₁ u₂ _ ended
    obtain ⟨after', -⟩ := ended
    apply read_bind after' l
    apply read_bind after' r
    exact boxed (binaryApply after' cfg.dataLimit op (after'.wf.valid_value l)
      (after'.wf.valid_value r))

theorem unary (contract : D.Contract ev₁ ev₂) (holds : D.Holds w H s₁ s₂)
    (here : D.Here w s₁ ctx.module) (op : UnaryOp) (operand : Expr) :
    D.Agree w s₁ s₂ (Eval.unary ev₁ ctx op operand) (Eval.unary ev₂ ctx op operand)
      fun b t₁ t₂ => D.Holds w H t₁ t₂ ∧ t₁.HasBox b := by
  apply bind (contract.expr ctx operand holds here)
  intro b t₁ t₂ _ ended
  obtain ⟨after, -⟩ := ended
  apply read_bind after b
  exact boxed (unaryApply after op _)

/-! ## Elements and parts of sequences -/

/-- An index that is answered is one of the sequence. -/
theorem indexValue (holds : D.Holds w H s₁ s₂) (key : BoxId) (size : Nat) :
    D.Agree w s₁ s₂ (Eval.indexValue key size) (Eval.indexValue key size) fun i t₁ t₂ =>
      Unchanged s₁ s₂ t₁ t₂ ∧ i < size := by
  apply read_bind holds key
  split
  · next n =>
    split
    · exact raise holds nofun
    · next inside =>
      refine pure _ ⟨⟨rfl, rfl⟩, ?_⟩
      rw [not_or, Int64.lt_iff_toInt_lt] at inside
      have zero : (0 : Int64).toInt = 0 := rfl
      omega
  · exact typeMismatch holds "i64" key

theorem boundValue (holds : D.Holds w H s₁ s₂) (bound : BoxId) (size : Nat) :
    D.Agree w s₁ s₂ (Eval.boundValue bound size) (Eval.boundValue bound size) fun _ t₁ t₂ =>
      Unchanged s₁ s₂ t₁ t₂ := by
  apply read_bind holds bound
  split
  · split
    · exact raise holds nofun
    · exact pure _ ⟨rfl, rfl⟩
  · exact typeMismatch holds "i64" bound

/-- The entry of a dictionary under a key, which has to be there. -/
theorem dictEntry (holds : D.Holds w H s₁ s₂) (d : DictId) (container key : BoxId) :
    D.Agree w s₁ s₂
      (do
        match ← onHeap (HeapM.dictGet? cfg.dataLimit d key) with
        | some b => return b
        | none => onHeap (HeapM.keyNotFound cfg.dataLimit container key))
      (do
        match ← onHeap (HeapM.dictGet? cfg.dataLimit d key) with
        | some b => return b
        | none => onHeap (HeapM.keyNotFound cfg.dataLimit container key))
      fun b t₁ t₂ => D.Holds w H t₁ t₂ ∧ t₁.Stored b := by
  apply find_bind (dictGet? holds cfg.dataLimit d key)
  intro found stored
  cases found with
  | some b => exact pure b ⟨holds, stored b rfl⟩
  | none => exact keyNotFound holds cfg.dataLimit container key

theorem index (contract : D.Contract ev₁ ev₂) (holds : D.Holds w H s₁ s₂)
    (here : D.Here w s₁ ctx.module) (target key : Expr) :
    D.Agree w s₁ s₂ (Eval.index ev₁ cfg ctx target key) (Eval.index ev₂ cfg ctx target key)
      fun b t₁ t₂ => D.Holds w H t₁ t₂ ∧ t₁.HasBox b := by
  apply bind (contract.expr ctx target holds here)
  intro t t₁ t₂ grew ended
  obtain ⟨after, -⟩ := ended
  apply bind (contract.expr ctx key after (here.mono grew))
  intro k u₁ u₂ _ ended
  obtain ⟨after', -⟩ := ended
  apply read_bind after' t
  split
  · apply (dictEntry after' _ t k).mono
    intro b v₁ v₂ _ ended
    obtain ⟨last, stored⟩ := ended
    exact ⟨last, (last.wf.own_stored stored).2⟩
  · next v _ =>
    dsimp only
    split
    · apply look_bind (typeName after' t)
      intro name
      exact raise_bind after' nofun
    · next isSequence =>
      apply find_bind (ofValue after' (by simpa using isSequence))
      intro q elements
      apply find_bind (indexValue after' k q.size)
      intro i inside
      apply (sequenceIndex after' elements inside).mono
      intro b v₁ v₂ _ ended
      obtain ⟨last, own⟩ := ended
      exact ⟨last, own.2⟩

theorem sliceBound (contract : D.Contract ev₁ ev₂) (holds : D.Holds w H s₁ s₂)
    (here : D.Here w s₁ ctx.module) (size default : Nat) (bound : Option Expr) :
    D.Agree w s₁ s₂ (Eval.sliceBound ev₁ ctx size default bound)
      (Eval.sliceBound ev₂ ctx size default bound) fun _ t₁ t₂ => D.Holds w H t₁ t₂ := by
  cases bound with
  | none => exact pure _ holds
  | some e =>
    apply bind (contract.expr ctx e holds here)
    intro b t₁ t₂ _ ended
    obtain ⟨after, -⟩ := ended
    apply (boundValue after b size).mono
    intro n t₁ t₂ _ ended
    obtain ⟨rfl, rfl⟩ := ended
    exact after

theorem sliceOf (contract : D.Contract ev₁ ev₂) (holds : D.Holds w H s₁ s₂)
    (here : D.Here w s₁ ctx.module) (target : Expr) (first last : Option Expr) :
    D.Agree w s₁ s₂ (Eval.slice ev₁ ctx target first last) (Eval.slice ev₂ ctx target first last)
      fun b t₁ t₂ => D.Holds w H t₁ t₂ ∧ t₁.HasBox b := by
  apply bind (contract.expr ctx target holds here)
  intro t t₁ t₂ grew ended
  obtain ⟨after, -⟩ := ended
  apply read_bind after t
  dsimp only
  split
  · apply look_bind (typeName after t)
    intro name
    exact raise_bind after nofun
  · next isSequence =>
    apply find_bind (ofValue after (by simpa using isSequence))
    intro q _
    apply bind (sliceBound contract after (here.mono grew) _ _ first)
    intro start u₁ u₂ grew' began
    apply bind (sliceBound contract began ((here.mono grew).mono grew') _ _ last)
    intro stop v₁ v₂ _ ended
    split
    · exact raise_bind ended nofun
    · exact boxed (slice ended q start stop)

/-! ## Members -/

theorem moduleMember {m : ModuleId} (holds : D.Holds w H s₁ s₂) (there : s₁.HasModule m)
    (moduleName name : String) :
    D.Agree w s₁ s₂ (Eval.moduleMember m moduleName name) (Eval.moduleMember m moduleName name)
      fun b t₁ t₂ => D.Holds w H t₁ t₂ ∧ t₁.HasBox b :=
  member holds there name (raise holds nofun)

theorem instanceMember {i : InstanceId} (holds : D.Holds w H s₁ s₂) (there : s₁.HasInstance i)
    (name : String) :
    D.Agree w s₁ s₂ (Eval.instanceMember i name) (Eval.instanceMember i name)
      fun b t₁ t₂ => D.Holds w H t₁ t₂ ∧ t₁.HasBox b := by
  have shaped := holds.wf.shaped there
  apply get_bind
  rw [holds.alike.heap]
  dsimp only
  split
  · next b found =>
    exact pure b ⟨holds, (shaped.boxes b (OrderedMap.mem_values_of_get? found)).2⟩
  · split
    · next f found =>
      have defined := (holds.wf.struct_ok shaped.definition).2
      exact allocFree holds ⟨defined f (OrderedMap.mem_values_of_get? found), there⟩
    · exact raise holds nofun

theorem select (contract : D.Contract ev₁ ev₂) (holds : D.Holds w H s₁ s₂)
    (here : D.Here w s₁ ctx.module) (target : Expr) (name : String) :
    D.Agree w s₁ s₂ (Eval.select ev₁ ctx target name) (Eval.select ev₂ ctx target name)
      fun b t₁ t₂ => D.Holds w H t₁ t₂ ∧ t₁.HasBox b := by
  apply bind (contract.expr ctx target holds here)
  intro t t₁ t₂ _ ended
  obtain ⟨after, -⟩ := ended
  have valid := after.wf.valid_value t
  apply read_bind after t
  split
  · next m moduleName isModule =>
    rw [isModule] at valid
    exact moduleMember after valid moduleName name
  · next i isStruct =>
    rw [isStruct] at valid
    exact instanceMember after valid name
  · exact typeMismatch after "struct or mod" t

/-! ## Literal lists, dictionaries and instances -/

/-- Copies of the values of some expressions are in hand. -/
theorem copyEach (contract : D.Contract ev₁ ev₂) (holds : D.Holds w H s₁ s₂)
    (here : D.Here w s₁ ctx.module) (es : List Expr) :
    D.Agree w s₁ s₂ (es.mapM fun e => do Eval.copy (← ev₁.expr ctx e))
      (es.mapM fun e => do Eval.copy (← ev₂.expr ctx e)) fun copies t₁ t₂ =>
        D.Holds w ((copies : Multiset BoxId) + H) t₁ t₂ := by
  apply (collect (R := fun _ _ => True) (g := fun c => {c}) es holds ?_).mono
  · intro copies t₁ t₂ _ ended
    obtain ⟨copied, -⟩ := ended
    rw [Multiset.bind_singleton, Multiset.map_id'] at copied
    exact copied
  · intro e _ K t₁ t₂ grew here'
    apply bind (contract.expr ctx e here' (here.mono grew))
    intro b u₁ u₂ _ ended
    obtain ⟨after, -⟩ := ended
    exact (copy after b).mono fun _ _ _ _ last => ⟨last, trivial⟩

theorem listLiteral (contract : D.Contract ev₁ ev₂) (holds : D.Holds w H s₁ s₂)
    (here : D.Here w s₁ ctx.module) (elements : List Expr) :
    D.Agree w s₁ s₂ (Eval.listLiteral ev₁ ctx elements) (Eval.listLiteral ev₂ ctx elements)
      fun b t₁ t₂ => D.Holds w H t₁ t₂ ∧ t₁.HasBox b := by
  apply bind (copyEach contract holds here elements)
  intro boxes t₁ t₂ _ copied
  exact boxed (allocList (by simpa using copied))

theorem dictLiteral (contract : D.Contract ev₁ ev₂) (holds : D.Holds w H s₁ s₂)
    (here : D.Here w s₁ ctx.module) (entries : List (Expr × Expr)) :
    D.Agree w s₁ s₂ (Eval.dictLiteral ev₁ cfg ctx entries) (Eval.dictLiteral ev₂ cfg ctx entries)
      fun b t₁ t₂ => D.Holds w H t₁ t₂ ∧ t₁.HasBox b := by
  apply bind (allocDict (m := .empty) (H := H) (by simpa [Dictionary.boxes] using holds))
  intro d t₁ t₂ grew ended
  obtain ⟨made, valid⟩ := ended
  apply bind (forM (I := fun _ u₁ u₂ => D.Holds w H u₁ u₂) entries made ?_)
  · intro _ u₁ u₂ grew' filled
    exact allocFree filled (valid.mono grew')
  · intro e _ before u₁ u₂ grew' filled
    have there := here.mono (grew.trans grew')
    apply bind (contract.expr ctx e.1 filled there)
    intro key v₁ v₂ grew'' ended
    obtain ⟨keyed, -⟩ := ended
    apply bind (contract.expr ctx e.2 keyed (there.mono grew''))
    intro b x₁ x₂ _ ended
    obtain ⟨valued, -⟩ := ended
    apply bind (copy valued b)
    intro value y₁ y₂ _ copied
    exact dictSet copied cfg.dataLimit d key

/-- The given fields of an instance replace the boxes that were there; the names stay the same. -/
theorem initFields (contract : D.Contract ev₁ ev₂) (definition : StructDef)
    (given : List (Ident × Expr)) :
    ∀ {s₁ s₂} (fields : OrderedMap String BoxId),
      D.Holds w ((fields.values : Multiset BoxId) + H) s₁ s₂ → D.Here w s₁ ctx.module →
      fields.keys = definition.fields →
      D.Agree w s₁ s₂ (Eval.initFields ev₁ cfg ctx definition given fields)
        (Eval.initFields ev₂ cfg ctx definition given fields) fun filled t₁ t₂ =>
          D.Holds w ((filled.values : Multiset BoxId) + H) t₁ t₂ ∧
            filled.keys = definition.fields := by
  induction given with
  | nil =>
    intro s₁ s₂ fields holds here names
    exact pure _ ⟨holds, names⟩
  | cons entry given ih =>
    intro s₁ s₂ fields holds here names
    rcases entry with ⟨name, e⟩
    unfold Eval.initFields
    dsimp only
    split
    · exact raiseAt holds nofun
    · next known =>
      apply bind (contract.expr ctx e holds here)
      intro b t₁ t₂ grew ended
      obtain ⟨after, -⟩ := ended
      apply bind (clone after cfg.dataLimit b)
      intro value u₁ u₂ grew' cloned
      have bound : name.name ∈ fields.keys := by
        rw [names]
        simpa using known
      apply ih
      · apply cloned.drop
        have fewer := add_le_add_left (OrderedMap.values_insert_le fields name.name value) H
        rwa [Multiset.cons_add] at fewer
      · exact (here.mono grew).mono grew'
      · rw [OrderedMap.keys_insert, if_pos bound]
        exact names

theorem instantiate (contract : D.Contract ev₁ ev₂) (holds : D.Holds w H s₁ s₂)
    (here : D.Here w s₁ ctx.module) (name : String) (given : List (Ident × Expr)) :
    D.Agree w s₁ s₂ (Eval.instantiate ev₁ cfg ctx name given)
      (Eval.instantiate ev₂ cfg ctx name given) fun b t₁ t₂ =>
        D.Holds w H t₁ t₂ ∧ t₁.HasBox b := by
  apply find_bind (getStruct? holds here name)
  intro found defined
  cases found with
  | none => exact raise holds nofun
  | some id =>
    have there := defined id rfl
    have distinct := (holds.wf.struct_ok there).1
    apply get_bind
    rw [holds.alike.heap]
    dsimp only
    apply bind (collect (R := fun field entry => entry.1 = field) (g := fun e => {e.2})
      (s₁.heap.structDef id).fields holds ?_)
    · intro empty u₁ u₂ grew ended
      obtain ⟨made, related⟩ := ended
      have names : empty.map (·.1) = (s₁.heap.structDef id).fields := by
        rw [map_fst_of_forall₂ (k := fun field => field) related, List.map_id']
      have kept := OrderedMap.ofList_of_nodup (names ▸ distinct)
      rw [Multiset.bind_singleton, Multiset.map_coe] at made
      apply bind (initFields (H := H) contract (s₁.heap.structDef id) given (.ofList empty)
        (by rw [kept]; exact made) (here.mono grew) (by rw [kept]; exact names))
      intro fields v₁ v₂ grew' ended
      obtain ⟨filled, names'⟩ := ended
      have later := grew.trans grew'
      exact boxed (allocInstance (i := ⟨id, fields⟩) (there.mono later)
        (by rw [later.structDef_eq there]; exact names') filled)
    · intro field _ K u₁ u₂ _ here'
      apply bind (alloc (v := .nil) here' trivial)
      intro b v₁ v₂ _ after
      exact pure _ ⟨after, rfl⟩

/-- An expression keeps a contract that its parts keep. -/
theorem expr (contract : D.Contract ev₁ ev₂) (holds : D.Holds w H s₁ s₂)
    (here : D.Here w s₁ ctx.module) (e : Expr) :
    D.Agree w s₁ s₂ (Eval.expr ev₁ cfg ctx e) (Eval.expr ev₂ cfg ctx e) fun b t₁ t₂ =>
      D.Holds w H t₁ t₂ ∧ t₁.HasBox b := by
  apply located
  cases e with
  | literal p value => exact literal holds value
  | ident p name => exact ident holds here name
  | binary p op left right => exact binary contract holds here op left right
  | unary p op operand => exact unary contract holds here op operand
  | index p target key => exact index contract holds here target key
  | slice p target first last => exact sliceOf contract holds here target first last
  | select p target name => exact select contract holds here target name
  | list p elements => exact listLiteral contract holds here elements
  | dict p entries => exact dictLiteral contract holds here entries
  | structInit p name brace fields => exact instantiate contract holds here name fields
  | call p callee args =>
    apply bind (contract.expr ctx callee holds here)
    intro f t₁ t₂ grew ended
    obtain ⟨after, -⟩ := ended
    apply bind (mapM (I := fun _ _ u₁ u₂ => D.Holds w H u₁ u₂) args after ?_)
    · intro boxes u₁ u₂ _ evaluated
      exact call contract evaluated ctx.calls f boxes
    · intro arg _ before boxes u₁ u₂ grew' evaluated
      exact (contract.expr ctx arg evaluated (here.mono (grew.trans grew'))).mono
        fun _ _ _ _ last => last.1

end Shiba.Discipline.Agree

import Shiba.Eval.Expr
import Shiba.Proofs.Zones.Call

/-!
# Expressions and their zones

One rule for every form of expression: when the evaluators of the parts keep to their zones, so does the
whole, and it evaluates to a box a program can see.  A key of a dictionary is no such box, and no form of
expression leads to one.
-/

namespace Shiba.Guarded.Safe

open Eval

variable {P : Policy} {σ τ : Guarded P} {ev₁ ev₂ : Evaluators} {ctx : Context} {β : Type}
  {R : β → Guarded P → Prop}

/-! ## Names and operations -/

/-- A new box that a program can see. -/
theorem fresh {v : Value} (fit : σ.Fit .live v) :
    σ.Safe (Eval.alloc v) (Eval.alloc v) fun b τ => τ.Seen b :=
  (alloc fit).mono fun _ _ _ live => live.seen

/-- The value a step has made is put into a new box. -/
theorem boxed {α : Type} {a₁ a₂ : Eval α} {f : α → Value}
    (made : σ.Safe a₁ a₂ fun x τ => τ.Fit .live (f x)) :
    σ.Safe (a₁ >>= fun x => Eval.alloc (f x)) (a₂ >>= fun x => Eval.alloc (f x)) fun b τ => τ.Seen b :=
  bind made fun _ _ _ fit => fresh fit

theorem literal (value : Literal) :
    σ.Safe (Eval.literal value) (Eval.literal value) fun b τ => τ.Seen b := by
  cases value with
  | int n => exact fresh (v := .int n) (fit_scalar trivial)
  | float x => exact fresh (v := .float x) (fit_scalar trivial)
  | str text => exact fresh (v := .str text) (fit_scalar trivial)
  | bool b => exact fresh (v := .bool b) (fit_scalar trivial)

/-- What a name means in a module: an object, else a struct, else what `rest` makes of it. -/
theorem member {m : ModuleId} {name : String} {rest : Eval BoxId} (here : σ.Here m)
    (named : P.names name) (missing : σ.Safe rest rest fun b τ => τ.Seen b) :
    σ.Safe
      (do
        match ← Eval.getObj? m name with
        | some b => return b
        | none =>
          match ← Eval.getStruct? m name with
          | some d => Eval.alloc (.structDef d)
          | none => rest)
      (do
        match ← Eval.getObj? m name with
        | some b => return b
        | none =>
          match ← Eval.getStruct? m name with
          | some d => Eval.alloc (.structDef d)
          | none => rest)
      fun b τ => τ.Seen b := by
  apply getObj?_bind here named
  intro found live
  cases found with
  | some b => exact pure (live b rfl).seen
  | none =>
    apply getStruct?_bind here.module
    intro found defined
    cases found with
    | some d => exact fresh ⟨defined d rfl, trivial⟩
    | none => exact missing

theorem ident {name : String} (here : σ.Here ctx.module) (named : P.names name) :
    σ.Safe (Eval.ident ctx name) (Eval.ident ctx name) fun b τ => τ.Seen b := by
  apply member here named
  apply get_bind
  split
  · next b found =>
    have isBuiltin := σ.wf.builtins b (OrderedMap.mem_values_of_get? found)
    exact pure ⟨σ.wf.has_builtin found, .inr isBuiltin⟩
  · exact raise

theorem binary {left right : Expr} (contract : Contract P ev₁ ev₂) (here : σ.Here ctx.module)
    (op : BinaryOp) (admitted : P.Admits left) (admitted' : P.Admits right) :
    σ.Safe (Eval.binary ev₁ P.config ctx op left right) (Eval.binary ev₂ P.config ctx op left right)
      fun b τ => τ.Seen b := by
  apply bind (contract.expr ctx here admitted)
  intro l τ later seen
  apply read_bind l
  split
  · exact fresh (fit_scalar trivial)
  · apply bind (contract.expr ctx (here.mono later) admitted')
    intro r υ later' seen'
    apply read_bind l
    apply read_bind r
    exact boxed (binaryApply P.limit op (seen.mono later').fit seen'.fit)

theorem unary {operand : Expr} (contract : Contract P ev₁ ev₂) (here : σ.Here ctx.module) (op : UnaryOp)
    (admitted : P.Admits operand) :
    σ.Safe (Eval.unary ev₁ ctx op operand) (Eval.unary ev₂ ctx op operand) fun b τ => τ.Seen b := by
  apply bind (contract.expr ctx here admitted)
  intro b τ _ _
  apply read_bind b
  exact boxed (unaryApply op _)

/-! ## Elements and parts of sequences -/

theorem looks_indexValue (key : BoxId) (size : Nat) :
    Looks (Eval.indexValue key size) fun _ => True := by
  refine .get_bind fun s => ?_
  split
  · split
    · exact .raise
    · exact .pure trivial
  · exact .typeMismatch "i64" key

theorem looks_boundValue (bound : BoxId) (size : Nat) :
    Looks (Eval.boundValue bound size) fun _ => True := by
  refine .get_bind fun s => ?_
  split
  · split
    · exact .raise
    · exact .pure trivial
  · exact .typeMismatch "i64" bound

/-- What a live dictionary has under a key that has to be there is live. -/
theorem dictEntry {d : DictId} {container key : BoxId} (fit : σ.Fit .live (.dict d)) :
    σ.Safe
      (do
        match ← onHeap (HeapM.dictGet? P.limit d key) with
        | some b => return b
        | none => onHeap (HeapM.keyNotFound P.limit container key))
      (do
        match ← onHeap (HeapM.dictGet? P.limit d key) with
        | some b => return b
        | none => onHeap (HeapM.keyNotFound P.limit container key))
      fun b τ => τ.In .live b := by
  apply dictGet?_bind fit
  intro found live
  cases found with
  | some b => exact pure (live b rfl)
  | none => exact keyNotFound

theorem index {target key : Expr} (contract : Contract P ev₁ ev₂) (here : σ.Here ctx.module)
    (admitted : P.Admits target) (admitted' : P.Admits key) :
    σ.Safe (Eval.index ev₁ P.config ctx target key) (Eval.index ev₂ P.config ctx target key)
      fun b τ => τ.Seen b := by
  apply bind (contract.expr ctx here admitted)
  intro t τ later seen
  apply bind (contract.expr ctx (here.mono later) admitted')
  intro k υ later' _
  have fit := (seen.mono later').fit
  apply read_bind t
  split
  · next d isDict =>
    rw [isDict] at fit
    exact (dictEntry fit).mono fun _ _ _ live => live.seen
  · dsimp only
    split
    · apply look_bind (.typeName t)
      intro name _
      exact raise
    · apply ofValue_bind fit
      intro q elements
      apply look_bind (looks_indexValue k q.size)
      intro i _
      exact (sequenceIndex elements i).mono fun _ _ _ live => live.seen

theorem sliceBound {bound : Option Expr} (contract : Contract P ev₁ ev₂) (here : σ.Here ctx.module)
    (admitted : ∀ e ∈ bound, P.Admits e) (size default : Nat) :
    σ.Safe (Eval.sliceBound ev₁ ctx size default bound) (Eval.sliceBound ev₂ ctx size default bound)
      fun _ _ => True := by
  cases bound with
  | none => exact pure trivial
  | some e =>
    apply bind (contract.expr ctx here (admitted e rfl))
    intro b τ _ _
    exact (look (looks_boundValue b size)).mono fun _ _ _ _ => trivial

theorem sliceOf {target : Expr} {first last : Option Expr} (contract : Contract P ev₁ ev₂)
    (here : σ.Here ctx.module) (admitted : P.Admits target) (starts : ∀ e ∈ first, P.Admits e)
    (stops : ∀ e ∈ last, P.Admits e) :
    σ.Safe (Eval.slice ev₁ ctx target first last) (Eval.slice ev₂ ctx target first last)
      fun b τ => τ.Seen b := by
  apply bind (contract.expr ctx here admitted)
  intro t τ later seen
  apply read_bind t
  dsimp only
  split
  · apply look_bind (.typeName t)
    intro name _
    exact raise
  · apply ofValue_bind seen.fit
    intro q elements
    have here' := here.mono later
    apply bind (sliceBound contract here' starts _ _)
    intro start υ later' _
    apply bind (sliceBound contract (here'.mono later') stops _ _)
    intro stop φ later'' _
    split
    · exact raise
    · exact boxed (slice (elements.mono (later'.trans later'')) start stop)

/-! ## Members -/

theorem instanceMember {i : InstanceId} (full : P.full) (fit : σ.Fit .live (.struct i)) (name : String) :
    σ.Safe (Eval.instanceMember i name) (Eval.instanceMember i name) fun b τ => τ.Seen b := by
  have valid : σ.state.HasInstance i := fit.1
  have shaped := σ.wf.shaped valid
  apply get_bind
  dsimp only
  split
  · next b found =>
    have listed := OrderedMap.mem_values_of_get? found
    exact pure ⟨(shaped.boxes b listed).2, .inl ((σ.fields i b listed).trans fit.2)⟩
  · split
    · next f found =>
      have defined := (σ.wf.struct_ok shaped.definition).2 f (OrderedMap.mem_values_of_get? found)
      exact fresh ⟨⟨defined, valid⟩, .inr ⟨full, fit.2⟩⟩
    · exact raise

theorem select {target : Expr} (contract : Contract P ev₁ ev₂) (full : P.full)
    (here : σ.Here ctx.module) (admitted : P.Admits target) (name : String) :
    σ.Safe (Eval.select ev₁ ctx target name) (Eval.select ev₂ ctx target name) fun b τ => τ.Seen b := by
  apply bind (contract.expr ctx here admitted)
  intro t τ _ seen
  have fit := seen.fit
  apply read_bind t
  split
  · next m moduleName isModule =>
    rw [isModule] at fit
    exact member (here_of_full full fit.1) ((P.whole full).1 name) raise
  · next i isStruct =>
    rw [isStruct] at fit
    exact instanceMember full fit name
  · exact (look (.typeMismatch (Q := fun _ => False) "struct or mod" t)).mono
      fun _ _ _ never => never.2.elim

/-! ## Literal lists, dictionaries and instances -/

/-- Copies of the values of some expressions. -/
theorem copyEach {es : List Expr} (contract : Contract P ev₁ ev₂) (here : σ.Here ctx.module)
    (admitted : ∀ e ∈ es, P.Admits e) :
    σ.Safe (es.mapM fun e => do Eval.copy (← ev₁.expr ctx e))
      (es.mapM fun e => do Eval.copy (← ev₂.expr ctx e)) fun copies τ =>
        ∀ c ∈ copies, τ.In .live c := by
  apply (mapM_all (S := fun τ c => τ.In .live c) es (fun later live => live.mono later) ?_).mono
  · exact fun _ _ _ after => after.2
  · intro e member τ later
    apply bind (contract.expr ctx (here.mono later) (admitted e member))
    intro b υ _ seen
    exact copy seen

theorem listLiteral {elements : List Expr} (contract : Contract P ev₁ ev₂) (here : σ.Here ctx.module)
    (admitted : ∀ e ∈ elements, P.Admits e) :
    σ.Safe (Eval.listLiteral ev₁ ctx elements) (Eval.listLiteral ev₂ ctx elements)
      fun b τ => τ.Seen b := by
  apply bind (copyEach contract here admitted)
  intro boxes τ _ copied
  exact boxed (allocList Zone.live_ne_old fun c member => copied c (List.mem_toArray.1 member))

theorem dictLiteral {entries : List (Expr × Expr)} (contract : Contract P ev₁ ev₂)
    (here : σ.Here ctx.module) (admitted : ∀ e ∈ entries, P.Admits e.1 ∧ P.Admits e.2) :
    σ.Safe (Eval.dictLiteral ev₁ P.config ctx entries) (Eval.dictLiteral ev₂ P.config ctx entries)
      fun b τ => τ.Seen b := by
  apply bind (allocDict (m := .empty) Zone.live_ne_old nofun nofun List.nodup_nil)
  intro d τ later fit
  apply bind (forM entries ?_)
  · intro _ υ later' _
    exact fresh (fit.mono later')
  · intro e member υ later'
    have here' := here.mono (later.trans later')
    apply bind (contract.expr ctx here' (admitted e member).1)
    intro key φ keyed seenKey
    apply bind (contract.expr ctx (here'.mono keyed) (admitted e member).2)
    intro b ψ valued seen
    apply bind (copy seen)
    intro value χ copied live
    exact dictSet (fit.mono (((later'.trans keyed).trans valued).trans copied))
      (seenKey.mono (valued.trans copied)).source live

/-- The given fields of an instance replace the boxes that were there; the names stay the same. -/
theorem initFields (contract : Contract P ev₁ ev₂) (definition : StructDef)
    (given : List (Ident × Expr)) (admitted : ∀ e ∈ given, P.Admits e.2) :
    ∀ {σ : Guarded P} (fields : OrderedMap String BoxId), σ.Here ctx.module →
      (∀ b ∈ fields.values, σ.In .live b) → fields.keys = definition.fields →
      σ.Safe (Eval.initFields ev₁ P.config ctx definition given fields)
        (Eval.initFields ev₂ P.config ctx definition given fields) fun filled τ =>
          (∀ b ∈ filled.values, τ.In .live b) ∧ filled.keys = definition.fields := by
  induction given with
  | nil => exact fun fields here live names => pure ⟨live, names⟩
  | cons entry given ih =>
    intro σ fields here live names
    rcases entry with ⟨name, e⟩
    have ⟨first, rest⟩ := List.forall_mem_cons.1 admitted
    unfold Eval.initFields
    dsimp only
    split
    · exact raiseAt_bind
    · next known =>
      apply bind (contract.expr ctx here first)
      intro b τ later seen
      apply bind (clone P.limit seen.source Zone.live_ne_old)
      intro value υ later' cloned
      have bound : name.name ∈ fields.keys := by
        rw [names]
        simpa using known
      apply ih rest
      · exact here.mono (later.trans later')
      · intro c member
        rcases OrderedMap.mem_values_insert member with rfl | old
        · exact cloned.1
        · exact (live c old).mono (later.trans later')
      · rw [OrderedMap.keys_insert, if_pos bound]
        exact names

theorem instantiate {given : List (Ident × Expr)} (contract : Contract P ev₁ ev₂)
    (here : σ.Here ctx.module) (name : String) (admitted : ∀ e ∈ given, P.Admits e.2) :
    σ.Safe (Eval.instantiate ev₁ P.config ctx name given) (Eval.instantiate ev₂ P.config ctx name given)
      fun b τ => τ.Seen b := by
  apply getStruct?_bind here.module
  intro found defined
  cases found with
  | none => exact raise
  | some id =>
    have there := defined id rfl
    have distinct := (σ.wf.struct_ok there).1
    apply get_bind
    dsimp only
    apply bind (mapM (S := fun τ (field : String) (e : String × BoxId) => e.1 = field ∧ τ.In .live e.2) _
      (fun later both => ⟨both.1, both.2.mono later⟩) ?_)
    · intro empty τ later related
      have names : empty.map (·.1) = (σ.state.heap.structDef id).fields := by
        rw [Discipline.Agree.map_fst_of_forall₂ (k := fun field => field)
          (related.imp fun _ _ both => both.1), List.map_id']
      have kept := OrderedMap.ofList_of_nodup (names ▸ distinct)
      apply bind (initFields contract (σ.state.heap.structDef id) given admitted (.ofList empty)
        (here.mono later) ?_ (by rw [kept]; exact names))
      · intro fields υ later' filled
        have whole := later.trans later'
        exact boxed (allocInstance (i := ⟨id, fields⟩) Zone.live_ne_old (there.mono whole.grew)
          (by rw [whole.grew.structDef_eq there]; exact filled.2) filled.1)
      · rw [kept]
        intro b member
        obtain ⟨entry, listed, rfl⟩ := List.mem_map.1 member
        obtain ⟨_, -, -, live⟩ := Heap.exists_of_mem related.flip listed
        exact live
    · intro field _ τ _
      apply bind (alloc (v := .nil) (fit_scalar trivial))
      intro b υ _ live
      exact pure ⟨rfl, live⟩

/-- An expression keeps to its zones when its parts do. -/
theorem expr (contract : Contract P ev₁ ev₂) (here : σ.Here ctx.module) {e : Expr}
    (admitted : P.Admits e) :
    σ.Safe (Eval.expr ev₁ P.config ctx e) (Eval.expr ev₂ P.config ctx e) fun b τ => τ.Seen b := by
  apply located
  cases e with
  | literal p value => exact literal value
  | ident p name => exact ident here admitted.name
  | binary p op left right => exact binary contract here op admitted.binary.1 admitted.binary.2
  | unary p op operand => exact unary contract here op admitted.unary
  | index p target key => exact index contract here admitted.index.1 admitted.index.2
  | slice p target first last =>
    obtain ⟨admitted, starts, stops⟩ := admitted.slice
    exact sliceOf contract here admitted starts stops
  | select p target name => exact select contract admitted.select here (.inl admitted.select) name
  | list p elements => exact listLiteral contract here admitted.list
  | dict p entries => exact dictLiteral contract here admitted.dict
  | structInit p name brace fields => exact instantiate contract here name admitted.structInit
  | call p callee args =>
    obtain ⟨called, given⟩ := admitted.call
    apply bind (contract.expr ctx here called)
    intro f τ later seen
    apply bind (mapM_all (S := fun τ b => τ.Seen b) args (fun later seen => seen.mono later) ?_)
    · intro boxes υ later' evaluated
      exact call contract ctx.calls (seen.mono later') evaluated.2
    · intro arg member υ later'
      exact contract.expr ctx (here.mono (later.trans later')) (given arg member)

end Shiba.Guarded.Safe

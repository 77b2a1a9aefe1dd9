import Shiba.Proofs.CallFrame
import Shiba.Proofs.Heap.Equality

/-!
# Local variables

A function that assigns to names of its own makes boxes and overwrites them.  These boxes are newer than
everything the call found, so that for the caller the heap has only grown.

* `Heap.Stores h k b v`: in the heap `k`, the box `b`, which is newer than the heap `h`, holds `v`.
* `Heap.Grows.write`: what is done to a newer box leaves the older heap as it is.
* `InFrame.assignNew`, `InFrame.compute`: the assignments, to a name that means nothing yet and with an operator.
* `InFrame.loop`: a loop with a condition that counts its turns down.
* `InFrame.accumulates`: a loop over a list that overwrites one variable turn by turn.
* `InFrame.callBuiltin`, `InFrame.index`, …: the expressions such functions are made of.
-/

namespace Shiba

/-! ## Boxes that are overwritten -/

namespace Heap

variable {h k k' : Heap} {b c : BoxId} {v w : Value}

/-- What is done to a newer box leaves the older heap as it is. -/
theorem Grows.write (grows : h.Grows k) (new : ¬ h.Has (.box b)) (v : Value) : h.Grows (k.write b v) := by
  refine { grows with boxes := ?_ }
  obtain ⟨later, whole⟩ := grows.boxes
  have behind : h.boxes.toList.length ≤ b.index := Nat.le_of_not_lt new
  rw [Heap.write, Array.toList_setIfInBounds, ← whole, List.set_append_right _ _ behind]
  exact List.prefix_append _ _

theorem Knows.write (knows : h.Knows v) (b : BoxId) (w : Value) : (h.write b w).Knows v := by
  cases v <;> exact knows

theorem Sound.write (sound : h.Sound) (there : h.Has (.box b)) (knows : h.Knows v) : (h.write b v).Sound := by
  have size : (h.write b v).boxes.size = h.boxes.size := Array.size_setIfInBounds
  refine ⟨fun c => Knows.write ?_ b v, ?_, ?_, ?_⟩
  · by_cases same : c = b
    · rw [same, value_write_self there]
      exact knows
    · rw [value_write_of_ne h v same]
      exact sound.value c
  · exact fun l c member => size ▸ sound.items l c member
  · exact fun d e member => size ▸ sound.entries d e member
  · exact fun i c member => size ▸ sound.fields i c member

/-- In the heap `k`, the box `b`, which is newer than the heap `h`, holds `v`. -/
structure Stores (h k : Heap) (b : BoxId) (v : Value) : Prop extends Added h k (.box b) where
  value : k.value b = v

theorem Stores.grown (stores : h.Stores k b v) (grows : k.Grows k') : h.Stores k' b v :=
  ⟨stores.toAdded.grown grows, (grows.value_eq stores.there).trans stores.value⟩

theorem Stores.since (stores : k.Stores k' b v) (grows : h.Grows k) : h.Stores k' b v :=
  ⟨stores.toAdded.since grows, stores.value⟩

/-- Another box is overwritten. -/
theorem Stores.write_of_ne (stores : h.Stores k b v) (other : b ≠ c) (w : Value) :
    h.Stores (k.write c w) b v :=
  ⟨⟨stores.new, (has_write k c w).2 stores.there⟩, (value_write_of_ne k w other).trans stores.value⟩

theorem Stores.write (stores : h.Stores k b v) (w : Value) : h.Stores (k.write b w) b w :=
  ⟨⟨stores.new, (has_write k b w).2 stores.there⟩, value_write_self stores.there w⟩

end Heap

/-! ## Elements -/

/-- The elements of a sequence, in order. -/
def Value.elements (h : Heap) : Value → List Value
  | .str text => text.toList.map fun c => .str (String.singleton c)
  | .list l => (h.items l).toList.map h.value
  | _ => []

theorem Value.elementAt?_eq (h : Heap) (v : Value) (k : Nat) : v.elementAt? h k = (v.elements h)[k]? := by
  cases v with
  | str text => exact List.getElem?_map.symm
  | list l => exact (congrArg (Option.map h.value) Array.getElem?_toList.symm).trans List.getElem?_map.symm
  | nil | bool | int | float | dict | struct | function | method | builtin | module | structDef => rfl

theorem Value.length_elements (h : Heap) (v : Value) : (v.elements h).length = v.length h := by
  cases v with
  | str text => exact List.length_map ..
  | list l => exact List.length_map ..
  | nil | bool | int | float | dict | struct | function | method | builtin | module | structDef => rfl

namespace Heap

variable {h k : Heap} {l : ListId} {b : BoxId}

theorem Grows.elements_eq (grows : h.Grows k) (sound : h.Sound) {v : Value} (knows : h.Knows v) :
    v.elements k = v.elements h := by
  cases v with
  | list l =>
    rw [Value.elements, Value.elements, grows.items_eq knows]
    exact List.map_congr_left fun b member => grows.value_eq (sound.items l b (Array.mem_toList_iff.1 member))
  | nil | bool | int | float | str | dict | struct | function | method | builtin | module | structDef => rfl

/-- A list keeps its elements when a box is overwritten that is none of its own. -/
theorem elements_write (h : Heap) (apart : b ∉ h.items l) (v : Value) :
    (Value.list l).elements (h.write b v) = (Value.list l).elements h :=
  List.map_congr_left fun _ member => value_write_of_ne h v fun same =>
    apart (same ▸ Array.mem_toList_iff.1 member)

end Heap

namespace HeapM

open Heap

variable {h : Heap} {can : Prop}

theorem adds_copyBox {k : Heap} {b : BoxId} (grows : h.Grows k) (sound : k.Sound) (there : h.Has (.box b)) :
    Adds (copy b) k can fun c k' => h.Stores k' c (h.value b) := by
  change Adds (alloc (k.value b)) k can _
  refine (adds_alloc sound (sound.value b)).mono id fun c k' _ _ made => ?_
  exact ⟨made.1.since grows, made.2.trans (grows.value_eq there)⟩

/-- A list of new boxes with what is in some boxes. -/
theorem adds_copies (sound : h.Sound) {boxes : List BoxId} (there : ∀ b ∈ boxes, h.Has (.box b)) :
    Adds (boxes.mapM copy >>= fun copies => do return Value.list (← allocList copies.toArray)) h can fun v k =>
      ∃ l, v = .list l ∧ k.Knows v ∧ v.elements k = boxes.map h.value ∧ ∀ c ∈ k.items l, h.Added k (.box c) := by
  let holds (k : Heap) (b c : BoxId) : Prop := h.Stores k c (h.value b)
  refine .bind (.mapM (S := holds) sound boxes (fun _ grows stores => stores.grown grows)
    fun b member k grows sound' => adds_copyBox grows sound' (there b member)) ?_
  intro copies k grows sound' made
  have new (c : BoxId) (member : c ∈ copies) : h.Added k (.box c) := by
    obtain ⟨b, -, stores⟩ := exists_of_mem made.flip member
    exact stores.toAdded
  refine .bind (adds_allocList sound' fun c member => (new c (List.mem_toArray.1 member)).there) ?_
  rintro l k' grows' sound'' ⟨added, isList⟩
  refine .pure sound'' ⟨l, rfl, added.there, ?_, fun c member => ?_⟩
  · have same : copies.map k'.value = boxes.map h.value := by
      rw [← List.forall₂_eq_eq_eq, List.forall₂_map_left_iff, List.forall₂_map_right_iff]
      exact made.flip.imp fun c b stores => (stores.grown grows').value
    rw [Value.elements, isList]
    exact same
  · rw [isList] at member
    exact (new c (List.mem_toArray.1 member)).grown grows'

/-- Two lists are added: the elements of the one, and then those of the other, are in new boxes. -/
theorem adds_concatenation (sound : h.Sound) (limit : Nat) {l l' : ListId} :
    Adds (BinaryOp.add.apply limit (.list l) (.list l')) h can fun v k =>
      ∃ l₀, v = .list l₀ ∧ k.Knows v ∧
        v.elements k = (Value.list l).elements h ++ (Value.list l').elements h ∧
        ∀ c ∈ k.items l₀, h.Added k (.box c) := by
  have there : ∀ b ∈ (h.items l ++ h.items l').toList, h.Has (.box b) := by
    intro b member
    rcases Array.mem_append.1 (Array.mem_toList_iff.1 member) with left | right
    · exact sound.items l b left
    · exact sound.items l' b right
  refine Adds.get_bind ((adds_copies sound there).mono id ?_)
  rintro v k - - ⟨l₀, isList, knows, elements, new⟩
  refine ⟨l₀, isList, knows, ?_, new⟩
  rw [elements, Array.toList_append, List.map_append]
  rfl

end HeapM

/-! ## Blocks and loops -/

namespace Eval

variable {cfg : Config} {s : State}

/-- A statement that ends by itself is followed by the others. -/
theorem Ends.runBlock_done {run : Stmt → Eval Flow} {stmt : Stmt} {rest : Block} {P : State → Prop}
    {Q : Flow → State → Prop} (first : Ends (run stmt) s fun flow t => flow = .done ∧ P t)
    (others : ∀ t, P t → Ends (runBlock run rest) t Q) : Ends (runBlock run (stmt :: rest)) s Q := by
  refine .runBlock_cons first ?_ fun flow t here _ => others t here.2
  rintro _ t ⟨rfl, -⟩ ⟨⟩

/-- The turns of a loop with a condition that makes as many turns as are left: `I k` holds when `k` turns are
left, and `Q` when the condition fails.  The induction is on the turns that are left. -/
theorem Ends.whileTurns {ev : Evaluators} {ctx : Context} {e : Expr} {body : Block} {I : Nat → State → Prop}
    {Q : State → Prop} {left turns : Nat} (enough : left < turns) (start : I left s)
    (turn : ∀ k t, I (k + 1) t → Ends (condition ev cfg ctx "loop" e) t fun holds u =>
      holds = true ∧ Ends (runBlock (ev.stmt ctx) body) u fun flow v => afterTurn flow = none ∧ I k v)
    (last : ∀ t, I 0 t → Ends (condition ev cfg ctx "loop" e) t fun holds u => holds = false ∧ Q u) :
    Ends (Eval.whileTurns ev cfg ctx e body turns) s fun flow t => flow = .done ∧ Q t := by
  obtain ⟨turns, rfl⟩ := Nat.exists_eq_add_one_of_ne_zero (Nat.ne_zero_of_lt enough)
  induction left generalizing s turns with
  | zero =>
    refine .bind (last s start) ?_
    rintro _ t ⟨rfl, here⟩
    exact .pure ⟨rfl, here⟩
  | succ k ih =>
    refine .bind (turn k s start) ?_
    rintro _ t ⟨rfl, runs⟩
    refine .bind runs fun flow u ⟨goesOn, here⟩ => ?_
    rw [goesOn]
    obtain ⟨turns, rfl⟩ := Nat.exists_eq_add_one_of_ne_zero (Nat.ne_zero_of_lt (Nat.succ_lt_succ_iff.1 enough))
    exact ih here turns (Nat.succ_lt_succ_iff.1 enough)

/-- A plain assignment to a name puts a copy there. -/
theorem assignPlain_ident (ev : Evaluators) (cfg : Config) (ctx : Context) (p : Position) (x : String)
    (e : Expr) : assignPlain ev cfg ctx [.ident p x] [e] = (do
      let b ← ev.expr ctx e
      let c ← copy b
      assignTo ev cfg ctx (.ident p x) c) := by
  simp only [assignPlain, assignAll, List.mapM_cons, List.mapM_nil, bind_assoc, pure_bind, List.zip_cons_cons,
    List.zip_nil_right, List.forM_eq_forM, List.forM_cons, List.forM_nil, bind_pure_unit]
  rfl

end Eval

namespace InFrame

open Eval Heap

variable {cfg : Config} {s t u : State} {m₀ m : ModuleId} {F : Frame BoxId StructId} {fuel calls : Nat}
  {e : Expr} {p p' p'' : Position} {x : String} {h base : Heap} {b acc : BoxId} {v w : Value}

/-! ## Expressions -/

/-- An expression comes to a value with a property, and leaves the frame it is evaluated in. -/
def Gives (cfg : Config) (s : State) (m : ModuleId) (F : Frame BoxId StructId) (fuel : Nat) (ctx : Context)
    (e : Expr) (u : State) (S : Value → Heap → Prop) : Prop :=
  Ends (evalExpr cfg fuel ctx e) u fun b t =>
    InFrame cfg s m F t ∧ u.heap.Grows t.heap ∧ S (t.heap.value b) t.heap

theorem ComesTo.gives {ctx : Context} (comes : ComesTo cfg s m F fuel ctx e u v) :
    Gives cfg s m F fuel ctx e u fun w _ => w = v := comes

/-- A name that is bound in the frame comes to what is in its box. -/
theorem identComes (inside : InFrame cfg s m F u) (site : s.Site m₀ m) (found : F.objs.get? x = some b)
    (fuel calls : Nat) (p : Position) :
    ComesTo cfg s m F (fuel + 1) ⟨m₀, calls⟩ (.ident p x) u (u.heap.value b) :=
  .of_run (inside.ident site found fuel calls p) ⟨inside, .refl _, rfl⟩

/-- A number under a name is compared with another one. -/
theorem greater {n : Int64} (inside : InFrame cfg s m F u) (site : s.Site m₀ m) (found : F.objs.get? x = some b)
    (there : u.heap.Has (.box b)) (counts : u.heap.value b = .int n) (k : Int64) (fuel calls : Nat)
    (p p' p'' : Position) :
    ComesTo cfg s m F (fuel + 2) ⟨m₀, calls⟩ (.binary p .greater (.ident p' x) (.literal p'' (.int k))) u
      (.bool (decide (k.toInt < n.toInt))) := by
  have isGreater : (compare n.toInt k.toInt).isGT = decide (k.toInt < n.toInt) := by
    rw [Bool.eq_iff_iff, decide_eq_true_iff, Ordering.isGT_iff_eq_gt, compare_gt_iff_gt]
  rw [ComesTo, evalExpr_succ, Eval.expr]
  refine .located (.after (inside.ident site found fuel calls p') (.after (run_read b u) ?_))
  rw [counts]
  refine .bind (inside.literal (v := .int k) (w := .int k) trivial rfl fuel ⟨m₀, calls⟩ p'') ?_
  rintro c t ⟨inside', grows, isNumber⟩
  refine .after (run_read b t) (.after (run_read c t) ?_)
  have compared : Eval.onHeap (BinaryOp.apply cfg.dataLimit .greater (t.heap.value b) (t.heap.value c)) t =
      (.ok (.bool (decide (k.toInt < n.toInt))), t) := by
    rw [grows.value_eq there, counts, isNumber, ← isGreater]
    rfl
  refine .after compared ((inside'.alloc (v := .bool _) trivial).mono fun c' t' made => ?_)
  exact ⟨made.1, grows.trans made.2.1, made.2.2.2⟩

/-- A counter is compared with zero. -/
theorem positive {k : Nat} (inside : InFrame cfg s m F u) (site : s.Site m₀ m) (found : F.objs.get? x = some b)
    (there : u.heap.Has (.box b)) (counts : u.heap.value b = .int (.ofNat k)) (small : k < 2 ^ 63)
    (fuel calls : Nat) (p p' p'' : Position) :
    ComesTo cfg s m F (fuel + 2) ⟨m₀, calls⟩ (.binary p .greater (.ident p' x) (.literal p'' (.int 0))) u
      (.bool (decide (0 < k))) := by
  have isPositive : decide ((0 : Int64).toInt < (Int64.ofNat k).toInt) = decide (0 < k) := by
    rw [Int64.toInt_ofNat_of_lt small]
    exact decide_eq_decide.2 Int.natCast_pos
  rw [← isPositive]
  exact inside.greater site found there counts 0 fuel calls p p' p''

/-- Copies of what some expressions come to, one after another. -/
theorem copies {ctx : Context} {es : List Expr} {values : List Value} (inside : InFrame cfg s m F u)
    (grows : h.Grows u.heap) (evaluate : List.Forall₂ (fun e v => ∀ t, InFrame cfg s m F t → h.Grows t.heap →
      ComesTo cfg s m F fuel ctx e t v) es values) :
    Ends (es.mapM fun e => do copy (← evalExpr cfg fuel ctx e)) u fun boxes t => InFrame cfg s m F t ∧
      u.heap.Grows t.heap ∧ List.Forall₂ (h.Stores t.heap) boxes values := by
  induction evaluate generalizing u with
  | nil => exact .pure ⟨inside, .refl _, .nil⟩
  | @cons e v es values first _ ih =>
    rw [List.mapM_cons]
    refine .bind (P := fun c t => InFrame cfg s m F t ∧ u.heap.Grows t.heap ∧ h.Stores t.heap c v) ?_ ?_
    · refine .bind (first u inside grows) ?_
      rintro b t ⟨inside, grows₁, holds⟩
      refine (inside.alloc (inside.sound.value b)).mono ?_
      rintro c t' ⟨inside, grows₂, added, isCopy⟩
      exact ⟨inside, grows₁.trans grows₂, added.since (grows.trans grows₁), isCopy.trans holds⟩
    · rintro c t ⟨inside, grows₁, stores⟩
      refine .bind (ih inside (grows.trans grows₁)) ?_
      rintro boxes t' ⟨inside, grows₂, each⟩
      exact .pure ⟨inside, grows₁.trans grows₂, .cons (stores.grown grows₂) each⟩

/-- A list of copies of what some expressions come to. -/
theorem list {ctx : Context} {es : List Expr} {values : List Value} (inside : InFrame cfg s m F u)
    (evaluate : List.Forall₂ (fun e v => ∀ t, InFrame cfg s m F t → u.heap.Grows t.heap →
      ComesTo cfg s m F fuel ctx e t v) es values) (p : Position) :
    Gives cfg s m F (fuel + 1) ctx (.list p es) u fun v h => ∃ l, v = .list l ∧ v.elements h = values := by
  rw [Gives, evalExpr_succ, Eval.expr]
  refine .located (.bind (inside.copies (.refl _) evaluate) ?_)
  rintro boxes t ⟨inside, grows, each⟩
  have there : ∀ c ∈ boxes.toArray, c.index < t.heap.boxes.size := by
    intro c member
    obtain ⟨v, -, stores⟩ := exists_of_mem each (List.mem_toArray.1 member)
    exact stores.there
  refine .bind (inside.onHeap (HeapM.adds_allocList inside.sound there) trivial) ?_
  rintro l t' ⟨inside', grows', added, isList⟩
  refine (inside'.alloc (v := .list l) added.there).mono ?_
  rintro b t'' ⟨inside'', grows'', -, holds⟩
  have later := grows'.trans grows''
  refine ⟨inside'', grows.trans later, l, holds, ?_⟩
  rw [holds, Value.elements, grows''.items_eq added.there, isList, ← List.forall₂_eq_eq_eq,
    List.forall₂_map_left_iff]
  exact each.imp fun c v stores => (stores.grown later).value

/-- An element of a sequence under its index. -/
theorem index {i : String} {c : BoxId} {n : Int64} {k : Nat} (inside : InFrame cfg s m F u) (site : s.Site m₀ m)
    (found : F.objs.get? x = some b) (found' : F.objs.get? i = some c) (counts : u.heap.value c = .int n)
    (isIndex : n.toInt = k) (element : (u.heap.value b).elementAt? u.heap k = some v) (fuel calls : Nat)
    (p p' p'' : Position) :
    ComesTo cfg s m F (fuel + 2) ⟨m₀, calls⟩ (.index p (.ident p' x) (.ident p'' i)) u v := by
  rw [ComesTo, evalExpr_succ, Eval.expr]
  refine .located (.after (inside.ident site found fuel calls p') ?_)
  refine .after (inside.ident site found' fuel calls p'') (.after (run_read b u) ?_)
  have indexed (size : Nat) (within : k < size) : indexValue c size u = (.ok k, u) := by
    rw [indexValue, bind_ok (run_read c u), counts]
    dsimp only
    have valid : ¬ (n < 0 ∨ (size : Int) ≤ n.toInt) := by
      rw [Int64.lt_iff_toInt_lt, isIndex]
      simp
      omega
    rw [if_neg valid, isIndex]
    rfl
  cases shape : u.heap.value b with
  | list l =>
    rw [shape] at element
    obtain ⟨d, at_k, rfl⟩ := Option.map_eq_some_iff.1 element
    have within : k < (u.heap.items l).size := (Array.getElem?_eq_some_iff.1 at_k).1
    refine .after (x := Sequence.boxes (u.heap.items l)) rfl (.after (indexed _ within) ?_)
    refine .of_run (x := d) ?_ ⟨inside, .refl _, rfl⟩
    rw [onHeap_apply, Sequence.index, at_k]
    rfl
  | str text =>
    rw [shape] at element
    obtain ⟨c', at_k, rfl⟩ := Option.map_eq_some_iff.1 element
    have found : text.toList.toArray[k]? = some c' := by rw [List.getElem?_toArray, at_k]
    have within : k < text.toList.toArray.size := (Array.getElem?_eq_some_iff.1 found).1
    refine .after (x := Sequence.text text.toList.toArray) rfl (.after (indexed _ within) ?_)
    rw [Sequence.index, found]
    exact (inside.alloc (v := .str (String.singleton c')) trivial).mono fun d t made =>
      ⟨made.1, made.2.1, made.2.2.2⟩
  | nil | bool | int | float | dict | struct | function | method | builtin | module | structDef =>
    rw [shape] at element
    cases element

/-- A name that means nothing in the module is that of a function visible everywhere. -/
theorem identBuiltin (inside : InFrame cfg s m F u) (site : s.Site m₀ m)
    (noObj : ((s.scopeOf m).withFrame F).getObj? x = none)
    (noStruct : ((s.scopeOf m).withFrame F).getStruct? x = none) (isBuiltin : s.builtins.get? x = some b)
    (fuel calls : Nat) (p : Position) :
    evalExpr cfg (fuel + 1) ⟨m₀, calls⟩ (.ident p x) u = (.ok b, u) := by
  have asked : getObj? m₀ x u = (.ok none, u) := by
    rw [run_getObj? (inside.stands site), inside.scopeOf site, noObj]
  have asked' : getStruct? m₀ x u = (.ok none, u) := by
    rw [run_getStruct? (inside.stands site), inside.scopeOf site, noStruct]
  rw [evalExpr_succ, Eval.expr]
  refine located_ok ((bind_ok asked).trans ((bind_ok asked').trans ((bind_ok (run_get u)).trans ?_)))
  rw [inside.builtins, isBuiltin]
  rfl

/-- A function that is visible everywhere is called on what is in a variable. -/
theorem callBuiltin {name : String} {c : BoxId} {f : Builtin} (inside : InFrame cfg s m F u) (site : s.Site m₀ m)
    (noObj : ((s.scopeOf m).withFrame F).getObj? name = none)
    (noStruct : ((s.scopeOf m).withFrame F).getStruct? name = none) (named : s.builtins.get? name = some c)
    (isBuiltin : u.heap.value c = .builtin f) (takesOne : f.arity = some 1) (found : F.objs.get? x = some b)
    (fits : (u.heap.canonical cfg.dataLimit (u.heap.value b)).isSome) (knows : ∀ h : Heap, h.Knows v)
    (performs : ∀ t, t.heap = u.heap → Builtin.perform cfg f [b] t = (.ok v, t)) (fuel calls : Nat)
    (p p' p'' : Position) :
    ComesTo cfg s m F (fuel + 2) ⟨m₀, calls⟩ (.call p (.ident p' name) [.ident p'' x]) u v := by
  rw [ComesTo, evalExpr_succ, Eval.expr]
  refine .located (.after (inside.identBuiltin site noObj noStruct named fuel calls p') ?_)
  have args : [Expr.ident p'' x].mapM (evalExpr cfg (fuel + 1) ⟨m₀, calls⟩) u = (.ok [b], u) := by
    rw [List.mapM_cons, bind_ok (inside.ident site found fuel calls p'')]
    rfl
  have called : call (evaluators cfg (fuel + 1)) cfg calls c [b] u = Builtin.call cfg f [b] u := by
    rw [call, bind_ok (run_get u), isBuiltin]
  refine .after args (.congr called ?_)
  rw [Builtin.call, takesOne]
  obtain ⟨shown, listed⟩ := run_shown cfg [b] (List.forall_mem_singleton.2 fits)
  dsimp only
  rw [if_neg (not_not.2 List.length_singleton)]
  refine .bind (inside.trace (bind_ok listed)) ?_
  rintro _ t ⟨inside, same⟩
  refine .after (performs t same) ((inside.alloc (knows t.heap)).mono fun d t' made => ?_)
  exact ⟨made.1, same ▸ made.2.1, made.2.2.2⟩

/-! ## Assignments -/

/-- A name that means nothing yet is bound to a new box. -/
theorem assignNew {S : Value → Heap → Prop} (site : s.Site m₀ m)
    (absent : ((s.scopeOf m).withFrame F).getObj? x = none)
    (evaluates : Gives cfg s m F fuel ⟨m₀, calls⟩ e u S) (p p' : Position) :
    Ends (evalStmt cfg (fuel + 1) ⟨m₀, calls⟩ (.assign p .plain [.ident p' x] [e])) u fun flow t =>
      flow = .done ∧ ∃ b v h, InFrame cfg s m (F.declare x b) t ∧ u.heap.Grows h ∧ S v h ∧ h.Knows v ∧
        h.Sound ∧ h.Grows t.heap ∧ h.Stores t.heap b v := by
  rw [evalStmt_succ, Eval.stmt]
  refine .located (.bind (P := fun _ t => _) ?_ fun _ t here => .pure ⟨rfl, here⟩)
  rw [assign, assignPlain_ident]
  refine .bind evaluates ?_
  rintro c t ⟨inside, grows, here⟩
  refine .bind (inside.alloc (inside.sound.value c)) ?_
  rintro b t' ⟨inside', grows', added, holds⟩
  have unbound : (t'.scopeOf m).getObj? x = none := by rw [inside'.scopeOf site, absent]
  refine .of_run (run_assignTo_unbound (inside'.stands site) unbound) ?_
  exact ⟨b, _, t.heap, inside'.modifyScope fun _ => rfl, grows, here, inside.sound.value c, inside.sound, grows',
    added, holds⟩

/-- A name that means nothing yet is bound to a new box with a literal. -/
theorem assignLiteral {value : Literal} (inside : InFrame cfg s m F u) (site : s.Site m₀ m)
    (absent : ((s.scopeOf m).withFrame F).getObj? x = none) (knows : u.heap.Knows w)
    (means : Eval.literal value = Eval.alloc w) (p p' p'' : Position) :
    Ends (evalStmt cfg (fuel + 2) ⟨m₀, calls⟩ (.assign p .plain [.ident p' x] [.literal p'' value])) u fun flow t =>
      flow = .done ∧ ∃ b, InFrame cfg s m (F.declare x b) t ∧ u.heap.Grows t.heap ∧ u.heap.Stores t.heap b w := by
  have evaluates := inside.literal knows means fuel ⟨m₀, calls⟩ p''
  refine (assignNew site absent evaluates.gives p p').mono ?_
  rintro flow t ⟨rfl, b, _, h, inside', grows, rfl, -, -, grows', stores⟩
  exact ⟨rfl, b, inside', grows.trans grows', stores.since grows⟩

/-- What an operator makes of a variable and a value is written into the box of the variable. -/
theorem compute {S R : Value → Heap → Prop} {op : ComputeOp} (site : s.Site m₀ m)
    (found : F.objs.get? x = some acc) (there : u.heap.Has (.box acc))
    (evaluates : Gives cfg s m F fuel ⟨m₀, calls⟩ e u S)
    (applies : ∀ v h, u.heap.Grows h → h.Sound → S v h →
      HeapM.Adds (op.binary.apply cfg.dataLimit (u.heap.value acc) v) h True fun w k => k.Knows w ∧ R w k)
    (p p' : Position) :
    Ends (evalStmt cfg (fuel + 1) ⟨m₀, calls⟩ (.assign p (.compute op) [.ident p' x] [e])) u fun flow t =>
      flow = .done ∧ InFrame cfg s m F t ∧ ∃ w k, u.heap.Grows k ∧ R w k ∧ t.heap = k.write acc w := by
  obtain ⟨b, t, run, inside', grows, here⟩ := evaluates
  obtain ⟨_, k, applied, grows', sound, after, answers⟩ := applies (t.heap.value b) t.heap grows inside'.sound here
  obtain ⟨w, rfl⟩ := answers trivial
  obtain ⟨knows, result⟩ := after w rfl
  have bound : getObj? m₀ x t = (.ok (some acc), t) := by
    rw [run_getObj? (inside'.stands site), inside'.scopeOf site]
    exact congrArg (fun o => (Except.ok (Option.or o _), t)) found
  have updated : updateBox cfg op acc b t = (.ok (), t.withHeap (k.write acc w)) := by
    refine run_updateBox_ok ?_
    rw [grows.value_eq there]
    exact applied
  have later := grows.trans grows'
  refine .of_run (evalStmt_assign_ok ((assignCompute_bound run bound).trans updated)) ⟨rfl, ?_, w, k, later, ?_⟩
  · exact { inside' with sound := sound.write (later.has there) knows }
  · exact ⟨result, rfl⟩

/-- A variable that is newer than an older heap takes the result of an operator.  The other variables keep what
they hold. -/
theorem computeTo {a : Value} {op : ComputeOp} (site : s.Site m₀ m)
    (found : F.objs.get? x = some acc) (grows : base.Grows u.heap) (stores : base.Stores u.heap acc a)
    (evaluates : ComesTo cfg s m F fuel ⟨m₀, calls⟩ e u v)
    (applies : ∀ h, op.binary.apply cfg.dataLimit a v h = (.ok w, h)) (knows : ∀ h : Heap, h.Knows w)
    (p p' : Position) :
    Ends (evalStmt cfg (fuel + 1) ⟨m₀, calls⟩ (.assign p (.compute op) [.ident p' x] [e])) u fun flow t =>
      flow = .done ∧ InFrame cfg s m F t ∧ base.Grows t.heap ∧ base.Stores t.heap acc w ∧
        ∃ k, u.heap.Grows k ∧ t.heap = k.write acc w := by
  refine (compute (R := fun w' _ => w' = w) site found stores.there evaluates.gives ?_ p p').mono ?_
  · rintro _ h later sound rfl
    refine ⟨.ok w, h, ?_, .refl h, sound, ?_, fun _ => ⟨w, rfl⟩⟩
    · rw [stores.value]
      exact applies h
    · rintro _ ⟨⟩
      exact ⟨knows h, rfl⟩
  · rintro flow t ⟨rfl, inside', _, k, later, same, written⟩
    rw [same] at written
    refine ⟨rfl, inside', ?_, ?_, k, later, written⟩
    · rw [written]
      exact (grows.trans later).write stores.new w
    · rw [written]
      exact (stores.grown later).write w

/-- What is in a variable is returned. -/
theorem returnVariable (inside : InFrame cfg s m F u) (site : s.Site m₀ m) (found : F.objs.get? x = some b)
    (p p' : Position) :
    Ends (runBlock (evalStmt cfg (fuel + 2) ⟨m₀, calls⟩) [.returnValue p (some (.ident p' x))]) u fun flow t =>
      (∃ F, InFrame cfg s m F t) ∧ u.heap.Grows t.heap ∧ ∃ r, flow = .returnValue (some r) ∧
        t.heap.value r = u.heap.value b := by
  refine .runBlock_last ((returnValue (inside.identComes site found fuel calls p')).mono ?_) ?_
  · rintro _ t ⟨r, rfl, inside', grows, holds⟩
    exact ⟨⟨F, inside'⟩, grows, r, rfl, holds⟩
  · rintro _ t ⟨-, -, r, rfl, -⟩ ⟨⟩

/-! ## Loops -/

/-- A loop that counts its turns down.  Its body declares no name; `I k` holds of the heap when `k` turns are
left. -/
theorem loop {I : Nat → Heap → Prop} {left : Nat} {body : Block} (inside : InFrame cfg s m F u)
    (site : s.Site m₀ m) (room : cfg.dataLimit ≠ 0) (enough : left < fuel) (start : I left u.heap)
    (lasts : ∀ {k h h'}, h.Sound → I k h → h.Grows h' → I k h')
    (tests : ∀ k t, InFrame cfg s m (F.inner .empty) t → I k t.heap →
      ComesTo cfg s m (F.inner .empty) fuel ⟨m₀, calls⟩ e t (.bool (decide (0 < k))))
    (turn : ∀ k t, InFrame cfg s m (F.inner .empty) t → I (k + 1) t.heap →
      Ends (runBlock (evalStmt cfg fuel ⟨m₀, calls⟩) body) t fun flow v =>
        flow = .done ∧ InFrame cfg s m (F.inner .empty) v ∧ I k v.heap) (p : Position) :
    Ends (evalStmt cfg (fuel + 1) ⟨m₀, calls⟩ (.loop p e body)) u fun flow t =>
      flow = .done ∧ InFrame cfg s m F t ∧ I 0 t.heap := by
  rw [evalStmt_succ, Eval.stmt]
  let J (k : Nat) (t : State) : Prop := InFrame cfg s m (F.inner .empty) t ∧ I k t.heap
  have tested (k : Nat) (t : State) (here : J k t) : Ends
      (Eval.condition (evaluators cfg fuel) cfg ⟨m₀, calls⟩ "loop" e) t fun holds v =>
        holds = decide (0 < k) ∧ J k v :=
    (condition room "loop" (tests k t here.1 here.2)).mono fun _ _ ended =>
      ⟨ended.1, ended.2.1, lasts here.1.sound here.2 ended.2.2⟩
  refine .located ((inside.block (Q := fun flow h => flow = .done ∧ I 0 h) site fun t entered same => ?_).mono
    fun _ _ ended => ⟨ended.2.1, ended.1, ended.2.2⟩)
  refine (Ends.whileTurns (I := J) (Q := J 0) enough ⟨entered, same ▸ start⟩ ?_ ?_).mono
    fun _ _ ended => ⟨⟨.empty, ended.2.1⟩, ended.1, ended.2.2⟩
  · intro k t here
    refine (tested (k + 1) t here).mono ?_
    rintro _ v ⟨rfl, inside', holds⟩
    refine ⟨decide_eq_true k.succ_pos, (turn k v inside' holds).mono ?_⟩
    rintro _ w ⟨rfl, after⟩
    exact ⟨rfl, after⟩
  · intro t here
    exact (tested 0 t here).mono fun _ _ ended => ended

/-- The names of a turn: the counter and the element. -/
def turnNames (counter element : String) (c e : BoxId) : OrderedMap String BoxId :=
  .ofList [(counter, c), (element, e)]

/-- A turn binds its two names alone, however often there was one before. -/
theorem insert_turnNames {counter element : String} (distinct : counter ≠ element)
    {level : OrderedMap String BoxId} (names : level = .empty ∨ ∃ c e, level = turnNames counter element c e)
    (c e : BoxId) : (level.insert counter c).insert element e = turnNames counter element c e := by
  rcases names with rfl | ⟨c', e', rfl⟩
  · rfl
  · simp [turnNames, OrderedMap.ofList, OrderedMap.insertMany, OrderedMap.insert, OrderedMap.insertEntry,
      OrderedMap.empty, distinct]

/-- A loop over a list that changes one variable.  The variable holds `A k` before the turn `k`. -/
theorem accumulates {A : Nat → Value} {counter element : Ident} {l : ListId} {body : Block}
    (inside : InFrame cfg s m F u) (site : s.Site m₀ m) (sound : base.Sound) (grows : base.Grows u.heap)
    (distinct : counter.name ≠ element.name) (found : F.objs.get? x = some b) (there : base.Has (.box b))
    (isList : base.value b = .list l) (start : base.Stores u.heap acc (A 0))
    (turn : ∀ k d, (base.items l)[k]? = some d → ∀ t c e, c ≠ acc → e ≠ acc →
      InFrame cfg s m (F.inner (turnNames counter.name element.name c e)) t → base.Grows t.heap →
      base.Stores t.heap c (.int (.ofNat k)) → base.Stores t.heap e (base.value d) →
      base.Stores t.heap acc (A k) →
      Ends (runBlock (evalStmt cfg (fuel + 1) ⟨m₀, calls⟩) body) t fun flow v =>
        flow = .done ∧ InFrame cfg s m (F.inner (turnNames counter.name element.name c e)) v ∧
          base.Grows v.heap ∧ base.Stores v.heap acc (A (k + 1))) (p p' : Position) :
    Ends (evalStmt cfg (fuel + 2) ⟨m₀, calls⟩ (.forIn p (.ident p' x) counter element body)) u fun flow t =>
      flow = .done ∧ InFrame cfg s m F t ∧ base.Grows t.heap ∧ base.Stores t.heap acc (A (base.items l).size) := by
  have holds : u.heap.value b = .list l := (grows.value_eq there).trans isList
  have knows : base.Knows (.list l) := isList ▸ sound.value b
  let Q (flow : Flow) (h : Heap) : Prop :=
    flow = .done ∧ base.Grows h ∧ base.Stores h acc (A (base.items l).size)
  refine (inside.forIn (Q := Q) site found (holds ▸ rfl) ?_).mono fun _ _ ended =>
    ⟨ended.2.1, ended.1, ended.2.2⟩
  intro boxes t entered grows' supplies
  obtain rfl : boxes = (base.items l).toList := by
    rw [supplies.own l holds, grows'.items_eq (knows.mono grows), grows.items_eq knows]
  let J (k : Nat) (t : State) : Prop := base.Grows t.heap ∧ base.Stores t.heap acc (A k) ∧ ∃ level,
    (level = .empty ∨ ∃ c e, level = turnNames counter.name element.name c e) ∧ InFrame cfg s m (F.inner level) t
  refine (Ends.forTurns (I := J) (R := fun _ _ => False) ⟨grows.trans grows', start.grown grows', .empty,
    .inl rfl, entered⟩ ?_).mono ?_
  · rintro k d at_k t ⟨grows, stores, level, names, inside⟩
    have member : d ∈ base.items l := Array.mem_toList_iff.1 (List.mem_of_getElem? at_k)
    have hasElement := sound.items l d member
    refine .bind (inside.beginTurn site counter.name element.name k (grows.has hasElement)) ?_
    rintro _ t' ⟨c, e, begun, grows', ⟨added, counts⟩, added', isElement⟩
    change InFrame cfg s m (F.inner ((level.insert counter.name c).insert element.name e)) t' at begun
    rw [insert_turnNames distinct names] at begun
    have other {c : BoxId} (added : t.heap.Added t'.heap (.box c)) : c ≠ acc := by
      rintro rfl
      exact added.new stores.there
    refine (turn k d ((Array.getElem?_toList).symm.trans at_k) t' c e (other added) (other added') begun
      (grows.trans grows') ⟨added.since grows, counts⟩
      ⟨added'.since grows, isElement.trans (grows.value_eq hasElement)⟩ (stores.grown grows')).mono ?_
    rintro _ v ⟨rfl, inside', grows'', stores'⟩
    exact ⟨grows'', stores', _, .inr ⟨c, e, rfl⟩, inside'⟩
  · rintro flow t (none | ⟨rfl, grows, stores, level, -, inside⟩)
    · exact none.elim
    · exact ⟨⟨level, inside⟩, rfl, grows, by rwa [Array.length_toList] at stores⟩

end InFrame

end Shiba

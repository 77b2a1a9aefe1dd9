import Mathlib.Algebra.Ring.Int.Defs
import Shiba.Proofs.LocalVariables
import Shiba.Proofs.Standard.Loading

/-!
# Reversing, adding up and joining

The functions `reverse`, `sum` and `join` of the standard module `seq` have an accumulator, a variable that a loop
overwrites turn by turn.  What one of them holds before a turn is a function of the number of turns, and the body
of each function is a loop with this invariant between an assignment and a return.

* `State.Offers`: the name of a function that is visible everywhere is not taken in a module, so that it means the
  function there.
* `InFrame.Reversing`: a loop that counts down has moved the elements behind the counter; `InFrame.reverse`.
* `InFrame.sum`: the accumulator holds the sum of the elements before the turn.
* `InFrame.join`: the accumulator holds the texts before the turn with the separator between them.
-/

namespace Shiba

/-! ## Displayed forms -/

namespace Heap

variable {h k : Heap} {v u : Value} {n m : Nat}

theorem display_congr (same : k.canonical n v = h.canonical n v) : k.display n v = h.display n v := by
  cases v with
  | str text => rfl
  | nil | bool | int | float | list | dict | struct | function | method | builtin | module | structDef =>
    exact same

theorem isSome_display_iff (room : n ≠ 0) : (h.display n v).isSome ↔ (h.canonical n v).isSome := by
  obtain ⟨n, rfl⟩ := Nat.exists_eq_succ_of_ne_zero room
  cases v with
  | str text => exact ⟨fun _ => rfl, fun _ => rfl⟩
  | nil | bool | int | float | list | dict | struct | function | method | builtin | module | structDef =>
    exact Iff.rfl

end Heap

/-! ## Names that mean nothing yet -/

/-- At the top level of a module, a name means nothing. -/
structure State.Unused (s : State) (m : ModuleId) (name : String) : Prop where
  obj : (s.scopeOf m).root.objs.get? name = none
  struct : (s.scopeOf m).root.structs.get? name = none

/-- In a module, the name of a function that is visible everywhere is not taken. -/
structure State.Offers (s : State) (m : ModuleId) (f : Builtin) (c : BoxId) : Prop where
  unused : s.Unused m f.name
  named : s.builtins.get? f.name = some c
  there : s.HasBox c
  value : s.heap.value c = .builtin f

section Names

variable {s : State} {m : ModuleId} {name : String} {F : Frame BoxId StructId}

theorem State.Unused.getObj? (unused : s.Unused m name) (free : F.objs.get? name = none) :
    ((s.scopeOf m).withFrame F).getObj? name = none := by
  change (F.objs.get? name).or ((s.scopeOf m).root.objs.get? name) = none
  rw [free, unused.obj]
  rfl

theorem State.Unused.getStruct? (unused : s.Unused m name) (free : F.structs.get? name = none) :
    ((s.scopeOf m).withFrame F).getStruct? name = none := by
  change (F.structs.get? name).or ((s.scopeOf m).root.structs.get? name) = none
  rw [free, unused.struct]
  rfl

end Names

namespace InFrame

open Eval Heap

variable {cfg : Config} {s t u : State} {m₀ m : ModuleId} {F : Frame BoxId StructId} {fuel calls : Nat}
  {x : String} {b c : BoxId} {v : Value}

/-! ## Calls of functions that are visible everywhere -/

/-- The length of a sequence. -/
theorem length (inside : InFrame cfg s m F u) (site : s.Site m₀ m) (offers : s.Offers m .len c)
    (grows : s.heap.Grows u.heap) (free : F.objs.get? "len" = none) (free' : F.structs.get? "len" = none)
    (found : F.objs.get? x = some b) (fits : (u.heap.canonical cfg.dataLimit (u.heap.value b)).isSome)
    (isSequence : (u.heap.value b).isSequence) (fuel calls : Nat) (p p' p'' : Position) :
    ComesTo cfg s m F (fuel + 2) ⟨m₀, calls⟩ (.call p (.ident p' "len") [.ident p'' x]) u
      (.int (.ofNat ((u.heap.value b).length u.heap))) := by
  refine inside.callBuiltin (f := .len) (v := .int _) site (offers.unused.getObj? free) (offers.unused.getStruct? free')
    offers.named ((grows.value_eq offers.there).trans offers.value) rfl found fits (fun _ => trivial) ?_ fuel
    calls p p' p''
  intro t same
  change Builtin.length b t = _
  rw [Builtin.length, bind_ok (run_get t), same]
  cases shape : u.heap.value b with
  | str text =>
    rw [Value.length, String.length_toList]
    rfl
  | list l => rfl
  | nil | bool | int | float | dict | struct | function | method | builtin | module | structDef =>
    rw [shape] at isSequence
    cases isSequence

/-- The displayed form of what is in a variable. -/
theorem text {text : String} (inside : InFrame cfg s m F u) (site : s.Site m₀ m) (offers : s.Offers m .str c)
    (grows : s.heap.Grows u.heap) (free : F.objs.get? "str" = none) (free' : F.structs.get? "str" = none)
    (found : F.objs.get? x = some b) (fits : (u.heap.canonical cfg.dataLimit (u.heap.value b)).isSome)
    (shown : u.heap.display cfg.dataLimit (u.heap.value b) = some text) (fuel calls : Nat)
    (p p' p'' : Position) :
    ComesTo cfg s m F (fuel + 2) ⟨m₀, calls⟩ (.call p (.ident p' "str") [.ident p'' x]) u (.str text) := by
  refine inside.callBuiltin (f := .str) (v := .str text) site (offers.unused.getObj? free)
    (offers.unused.getStruct? free') offers.named ((grows.value_eq offers.there).trans offers.value) rfl found fits
    (fun _ => trivial) ?_ fuel calls p p' p''
  intro t same
  have displayed : Eval.display cfg b t = (.ok text, t) := by
    change Eval.onHeap (HeapM.bounded fun h => h.display cfg.dataLimit (t.heap.value b)) t = _
    rw [HeapM.bounded, onHeap_get_bind, bind_ok (run_get t), same, shown]
    rfl
  exact bind_ok displayed

/-! ## Reversing -/

/-- A loop that reverses has `k` elements left.  One variable holds this number, and another one a list of those
that are behind them, the last one first. -/
structure Reversing (base : Heap) (values : List Value) (out n : BoxId) (k : Nat) (h : Heap) : Prop where
  within : k ≤ values.length
  grows : base.Grows h
  counts : base.Stores h n (.int (.ofNat k))
  reversed : ∃ l, base.Stores h out (.list l) ∧ (Value.list l).elements h = (values.drop k).reverse ∧
    out ∉ h.items l ∧ n ∉ h.items l

section Reverse

variable {base h h' : Heap} {values : List Value} {out n : BoxId} {k : Nat}

theorem Reversing.grown (reversing : Reversing base values out n k h) (sound : h.Sound) (later : h.Grows h') :
    Reversing base values out n k h' := by
  obtain ⟨l, stores, elements, apart⟩ := reversing.reversed
  have knows : h.Knows (.list l) := stores.value ▸ sound.value out
  refine ⟨reversing.within, reversing.grows.trans later, reversing.counts.grown later, l, stores.grown later, ?_, ?_⟩
  · rw [later.elements_eq sound knows, elements]
  · rwa [later.items_eq knows]

/-- The number of elements that are left is overwritten. -/
theorem Reversing.count (reversing : Reversing base values out n k h) (distinct : out ≠ n) (j : Nat) :
    base.Grows (h.write n (.int (.ofNat j))) ∧ base.Stores (h.write n (.int (.ofNat j))) n (.int (.ofNat j)) ∧
      ∃ l, base.Stores (h.write n (.int (.ofNat j))) out (.list l) ∧
        (Value.list l).elements (h.write n (.int (.ofNat j))) = (values.drop k).reverse := by
  obtain ⟨l, stores, elements, -, apart⟩ := reversing.reversed
  refine ⟨reversing.grows.write reversing.counts.new _, reversing.counts.write _, l,
    stores.write_of_ne distinct _, ?_⟩
  rw [elements_write h apart, elements]

/-- A turn takes the last element that is left. -/
theorem reverseTurn (inside : InFrame cfg s m F t) (site : s.Site m₀ m) (sound : base.Sound)
    (isSequence : F.objs.get? "xs" = some b) (isOut : F.objs.get? "out" = some out)
    (isCount : F.objs.get? "n" = some n) (distinct : out ≠ n) (there : base.Has (.box b))
    (isElements : (base.value b).elements base = values) (small : values.length < 2 ^ 63)
    (reversing : Reversing base values out n (k + 1) t.heap) (q₁ q₂ q₃ q₄ q₅ q₆ q₇ q₈ q₉ : Position) :
    Ends (runBlock (evalStmt cfg (fuel + 4) ⟨m₀, calls⟩)
      [.assign q₁ (.compute .sub) [.ident q₂ "n"] [.literal q₃ (.int 1)],
        .assign q₄ (.compute .add) [.ident q₅ "out"]
          [.list q₆ [.index q₇ (.ident q₈ "xs") (.ident q₉ "n")]]]) t fun flow v =>
      flow = .done ∧ InFrame cfg s m F v ∧ Reversing base values out n k v.heap := by
  have fewer : Int64.ofInt ((Int64.ofNat (k + 1)).toInt - (1 : Int64).toInt) = Int64.ofNat k := by
    rw [Int64.ofInt_sub, Int64.ofInt_toInt, Int64.ofInt_toInt, Int64.ofNat_add]
    exact Int64.add_sub_cancel _ _
  have within : k < values.length := reversing.within
  have one := inside.literal (v := .int 1) (w := .int 1) trivial rfl (fuel + 2) ⟨m₀, calls⟩ q₃
  refine .runBlock_done (P := fun v => InFrame cfg s m F v ∧ base.Grows v.heap ∧
    base.Stores v.heap n (.int (.ofNat k)) ∧ ∃ l, base.Stores v.heap out (.list l) ∧
      (Value.list l).elements v.heap = (values.drop (k + 1)).reverse) ?_ ?_
  · refine (computeTo (w := .int (.ofNat k)) site isCount reversing.grows reversing.counts one ?_
      (fun _ => trivial) q₁ q₂).mono ?_
    · intro h
      rw [← fewer]
      rfl
    · rintro flow v ⟨rfl, inside', -, -, k₁, later, written⟩
      have counted := (reversing.grown inside.sound later).count distinct k
      rw [← written] at counted
      exact ⟨rfl, inside', counted⟩
  · rintro v ⟨inside, grows, counts, l, stores, elements⟩
    have indexed (v' : State) (inside' : InFrame cfg s m F v') (later : v.heap.Grows v'.heap) :
        ComesTo cfg s m F (fuel + 2) ⟨m₀, calls⟩ (.index q₇ (.ident q₈ "xs") (.ident q₉ "n")) v' values[k] := by
      refine inside'.index site isSequence isCount (counts.grown later).value
        (Int64.toInt_ofNat_of_lt (Nat.lt_trans within small)) ?_ fuel calls q₇ q₈ q₉
      have grows' := grows.trans later
      rw [Value.elementAt?_eq, grows'.value_eq there, grows'.elements_eq sound (sound.value b), isElements,
        List.getElem?_eq_getElem within]
    let R (w : Value) (k₂ : Heap) : Prop := ∃ l₀, w = .list l₀ ∧ w.elements k₂ = (values.drop k).reverse ∧
      out ∉ k₂.items l₀ ∧ n ∉ k₂.items l₀
    refine .runBlock_last ((compute (R := R) site isOut stores.there
      (inside.list (.cons indexed .nil) q₆) ?applies q₄ q₅).mono ?_) fun _ _ ended _ => ⟨rfl, ended.2⟩
    case applies =>
      rintro _ h later sound' ⟨l', rfl, elements'⟩
      rw [stores.value]
      refine (HeapM.adds_concatenation sound' cfg.dataLimit).mono id ?_
      rintro _ k₂ - - ⟨l₀, rfl, knows, elements₀, new⟩
      refine ⟨knows, l₀, rfl, ?_, fun member => ?_, fun member => ?_⟩
      · have known : v.heap.Knows (.list l) := stores.value ▸ inside.sound.value out
        rw [elements₀, elements', later.elements_eq inside.sound known, elements, List.drop_eq_getElem_cons within,
          List.reverse_cons]
      · exact (new out member).new (later.has stores.there)
      · exact (new n member).new (later.has counts.there)
    · rintro flow v' ⟨rfl, inside', w, k₂, later, ⟨l₀, rfl, elements₀, apart, apart'⟩, written⟩
      refine ⟨rfl, inside', ?_⟩
      rw [written]
      refine ⟨within.le, (grows.trans later).write stores.new _, (counts.grown later).write_of_ne distinct.symm _, l₀,
        (stores.grown later).write _, ?_, apart, apart'⟩
      rw [elements_write k₂ apart, elements₀]

/-- The counter begins with the length of the sequence, when no element is behind it. -/
theorem reverseStart {l : ListId} (inside : InFrame cfg s m F t) (site : s.Site m₀ m) (sound : base.Sound)
    (offers : s.Offers m .len c) (noLen : F.objs.get? "len" = none) (noLen' : F.structs.get? "len" = none)
    (free : s.Unused m "n") (noCount : F.objs.get? "n" = none) (isSequence : F.objs.get? "xs" = some b)
    (later : s.heap.Grows base) (grows : base.Grows t.heap) (there : base.Has (.box b))
    (sequence : (base.value b).isSequence) (fits : (base.canonical cfg.dataLimit (base.value b)).isSome)
    (isElements : (base.value b).elements base = values) (stores : base.Stores t.heap out (.list l))
    (empty : (Value.list l).elements t.heap = []) (q₁ q₂ q₃ q₄ q₅ : Position) :
    Ends (evalStmt cfg (fuel + 3) ⟨m₀, calls⟩
      (.assign q₁ .plain [.ident q₂ "n"] [.call q₃ (.ident q₄ "len") [.ident q₅ "xs"]])) t fun flow t' =>
      flow = .done ∧ ∃ n, out ≠ n ∧ InFrame cfg s m (F.declare "n" n) t' ∧
        Reversing base values out n values.length t'.heap := by
  have same := grows.value_eq there
  have isLength : (t.heap.value b).length t.heap = values.length := by
    rw [← Value.length_elements, same, grows.elements_eq sound (sound.value b), isElements]
  have counted := inside.length site offers (later.trans grows) noLen noLen' isSequence
    (by rwa [same, (sound.preserves grows).canonical_eq _ (sound.value b)]) (by rwa [same]) fuel calls q₃ q₄ q₅
  rw [isLength] at counted
  refine (assignNew site (free.getObj? noCount) counted.gives q₁ q₂).mono ?_
  rintro flow t' ⟨rfl, n, _, h, inside', grows₂, rfl, -, -, grows₃, counts⟩
  have grows' := grows₂.trans grows₃
  have none : (t'.heap.items l).toList = [] := by
    have knows : t.heap.Knows (.list l) := stores.value ▸ inside.sound.value out
    rw [grows'.items_eq knows]
    exact List.map_eq_nil_iff.1 empty
  refine ⟨rfl, n, ?_, inside', Nat.le_refl _, grows.trans grows', counts.since (grows.trans grows₂), l,
    stores.grown grows', ?_, ?_⟩
  · rintro rfl
    exact counts.new (grows₂.has stores.there)
  · rw [Value.elements, none, List.drop_length]
    rfl
  · simp [← Array.mem_toList_iff, none]

/-- The body of the function returns a list of the elements in reverse order. -/
theorem reverse (inside : InFrame cfg s m (begun (.ofList [("xs", b)])) u) (site : s.Site m₀ m)
    (room : cfg.dataLimit ≠ 0) (offers : s.Offers m .len c) (free : s.Unused m "out") (free' : s.Unused m "n")
    (grows : s.heap.Grows u.heap) (there : u.heap.Has (.box b)) (isSequence : (u.heap.value b).isSequence)
    (fits : (u.heap.canonical cfg.dataLimit (u.heap.value b)).isSome)
    (small : (u.heap.value b).length u.heap < 2 ^ 63) (enough : (u.heap.value b).length u.heap ≤ fuel) :
    Ends (runBlock (evalStmt cfg (fuel + 5) ⟨m₀, calls⟩) Library.reverseDecl.body) u fun flow t =>
      (∃ F, InFrame cfg s m F t) ∧ u.heap.Grows t.heap ∧ ∃ r, flow = .returnValue (some r) ∧
        ∃ l, t.heap.value r = .list l ∧
          (t.heap.value r).elements t.heap = ((u.heap.value b).elements u.heap).reverse := by
  let base := u.heap
  let values := (base.value b).elements base
  have sound := inside.sound
  rw [← Value.length_elements] at small enough
  let F₁ (out : BoxId) := (begun (.ofList [("xs", b)])).declare "out" out
  let F₂ (out n : BoxId) := (F₁ out).declare "n" n
  -- the accumulator begins with an empty list
  refine .runBlock_done (P := fun t => ∃ out l, InFrame cfg s m (F₁ out) t ∧ base.Grows t.heap ∧
    base.Stores t.heap out (.list l) ∧ (Value.list l).elements t.heap = []) ?_ ?_
  · refine (assignNew site (free.getObj? rfl) (inside.list .nil _) _ _).mono ?_
    rintro flow t ⟨rfl, out, _, h, inside, grows₁, ⟨l, rfl, elements⟩, knows, sound', grows₂, stores⟩
    refine ⟨rfl, out, l, inside, grows₁.trans grows₂, stores.since grows₁, ?_⟩
    rw [grows₂.elements_eq sound' knows, elements]
  rintro t ⟨out, l, inside, grows₁, stores, empty⟩
  refine .runBlock_done (P := fun t => ∃ n, out ≠ n ∧ InFrame cfg s m (F₂ out n) t ∧
    Reversing base values out n values.length t.heap) ?_ ?_
  · exact inside.reverseStart site sound offers rfl rfl free' rfl rfl grows grows₁ there isSequence fits rfl stores
      empty _ _ _ _ _
  rintro t ⟨n, distinct, inside, reversing⟩
  refine .runBlock_done (P := fun t => InFrame cfg s m (F₂ out n) t ∧ Reversing base values out n 0 t.heap) ?_ ?_
  · refine inside.loop (I := Reversing base values out n) site room (Nat.lt_of_le_of_lt enough (by omega)) reversing
      (fun sound reversing later => reversing.grown sound later) ?_ ?_ _
    · intro k t inside reversing
      exact inside.positive site rfl reversing.counts.there reversing.counts.value
        (Nat.lt_of_le_of_lt reversing.within small) (fuel + 2) calls _ _ _
    · intro k t inside reversing
      exact inside.reverseTurn site sound rfl rfl rfl distinct there rfl small reversing _ _ _ _ _ _ _ _ _
  rintro t ⟨inside, reversing⟩
  obtain ⟨l, stores, elements, -⟩ := reversing.reversed
  refine (inside.returnVariable site (x := "out") rfl _ _).mono ?_
  rintro _ v ⟨left, later, r, rfl, holds⟩
  have isList : v.heap.value r = .list l := holds.trans stores.value
  have knows : t.heap.Knows (.list l) := stores.value ▸ inside.sound.value out
  refine ⟨left, reversing.grows.trans later, r, rfl, l, isList, ?_⟩
  rw [isList, later.elements_eq inside.sound knows, elements, List.drop_zero]

end Reverse

/-! ## Adding up -/

section Sum

variable {base : Heap} {ns : List Int64} {acc d e : BoxId} {k : Nat} {l : ListId}

/-- A turn adds the element to what the variable holds, the sum of those before it. -/
theorem sumTurn (inside : InFrame cfg s m F t) (site : s.Site m₀ m) (isTotal : F.objs.get? "total" = some acc)
    (isElement : F.objs.get? "e" = some e) (grows : base.Grows t.heap)
    (stores : base.Stores t.heap acc (.int (.ofInt ((ns.take k).map Int64.toInt).sum))) (within : k < ns.length)
    (holds : t.heap.value e = .int ns[k]) (q₁ q₂ q₃ : Position) :
    Ends (runBlock (evalStmt cfg (fuel + 2) ⟨m₀, calls⟩)
      [.assign q₁ (.compute .add) [.ident q₂ "total"] [.ident q₃ "e"]]) t fun flow v =>
      flow = .done ∧ InFrame cfg s m F v ∧ base.Grows v.heap ∧
        base.Stores v.heap acc (.int (.ofInt ((ns.take (k + 1)).map Int64.toInt).sum)) := by
  have added : Int64.ofInt ((Int64.ofInt ((ns.take k).map Int64.toInt).sum).toInt + ns[k].toInt) =
      Int64.ofInt ((ns.take (k + 1)).map Int64.toInt).sum := by
    rw [List.take_succ_eq_append_getElem within, List.map_append, List.sum_append, List.map_singleton,
      List.sum_singleton, Int64.ofInt_add, Int64.ofInt_toInt, ← Int64.ofInt_add]
  have evaluated := inside.identComes site isElement fuel calls q₃
  rw [holds] at evaluated
  let sum : Value := .int (.ofInt ((ns.take (k + 1)).map Int64.toInt).sum)
  refine .runBlock_last ((computeTo (w := sum) site isTotal grows stores evaluated ?_ (fun _ => trivial) q₁
    q₂).mono ?_) fun _ _ ended _ => ⟨rfl, ended.2⟩
  · intro h
    change _ = (Except.ok (Value.int _), h)
    rw [← added]
    rfl
  · rintro flow v ⟨rfl, inside', grows', stores', -⟩
    exact ⟨rfl, inside', grows', stores'⟩

/-- The body of the function returns the sum of the elements, reduced to a word. -/
theorem sum (inside : InFrame cfg s m (begun (.ofList [("xs", b)])) u) (site : s.Site m₀ m)
    (free : s.Unused m "total") (there : u.heap.Has (.box b)) (isList : u.heap.value b = .list l)
    (isElements : (Value.list l).elements u.heap = ns.map .int) :
    Ends (runBlock (evalStmt cfg (fuel + 3) ⟨m₀, calls⟩) Library.sumDecl.body) u fun flow t =>
      (∃ F, InFrame cfg s m F t) ∧ u.heap.Grows t.heap ∧ ∃ r, flow = .returnValue (some r) ∧
        t.heap.value r = .int (.ofInt (ns.map Int64.toInt).sum) := by
  let base := u.heap
  let total (k : Nat) : Value := .int (.ofInt ((ns.take k).map Int64.toInt).sum)
  have sound := inside.sound
  have size : (base.items l).size = ns.length := by
    have sizes := congrArg List.length isElements
    rwa [Value.length_elements, List.length_map] at sizes
  let F' (acc : BoxId) := (begun (.ofList [("xs", b)])).declare "total" acc
  refine .runBlock_done (P := fun t => ∃ acc, InFrame cfg s m (F' acc) t ∧ base.Grows t.heap ∧
    base.Stores t.heap acc (total 0)) ?_ ?_
  · exact inside.assignLiteral site (free.getObj? rfl) (w := .int 0) trivial rfl _ _ _
  rintro t ⟨acc, inside, grows, stores⟩
  refine .runBlock_done (P := fun t => InFrame cfg s m (F' acc) t ∧ base.Grows t.heap ∧
    base.Stores t.heap acc (total ns.length)) ?_ ?_
  · refine size ▸ inside.accumulates (A := total) (x := "xs") (b := b) site sound grows (by decide) rfl there
      isList stores ?_ _ _
    intro k d at_k t c e _ _ inside grows _ storesElement stores
    have element : (ns.map Value.int)[k]? = some (base.value d) := by
      rw [← isElements, ← Value.elementAt?_eq, Value.elementAt?, at_k]
      rfl
    obtain ⟨within, same⟩ := List.getElem?_eq_some_iff.1 element
    rw [List.getElem_map] at same
    rw [List.length_map] at within
    exact sumTurn inside site rfl rfl grows stores within (storesElement.value.trans same.symm) _ _ _
  rintro t ⟨inside, grows, stores⟩
  refine (inside.returnVariable site (x := "total") rfl _ _).mono ?_
  rintro _ v ⟨left, later, r, rfl, holds⟩
  refine ⟨left, grows.trans later, r, rfl, ?_⟩
  rw [holds, stores.value]
  exact congrArg (fun ns : List Int64 => Value.int (.ofInt (ns.map Int64.toInt).sum)) List.take_length

end Sum

/-! ## Joining -/

section Join

variable {base : Heap} {texts : List String} {sep : String} {acc i e q d : BoxId} {k : Nat} {l : ListId}

/-- One more text is joined to those before it.  The separator stands before every text but the first. -/
theorem intercalate_take_succ (sep : String) (within : k < texts.length) :
    (if 0 < k then sep.intercalate (texts.take k) ++ sep else "") ++ texts[k] =
      sep.intercalate (texts.take (k + 1)) := by
  rw [List.take_succ_eq_append_getElem within]
  split
  · next later =>
    rw [String.intercalate_append_of_ne_nil, String.intercalate_singleton]
    · exact List.ne_nil_of_length_pos (by rw [List.length_take]; omega)
    · exact List.cons_ne_nil _ _
  · next first =>
    obtain rfl : k = 0 := Nat.eq_zero_of_not_pos first
    rw [List.take_zero, List.nil_append, String.intercalate_singleton, String.empty_append]

/-- A turn adds the separator, if it is not the first, and the displayed form of the element. -/
theorem joinTurn (inside : InFrame cfg s m F t) (site : s.Site m₀ m) (room : cfg.dataLimit ≠ 0)
    (offers : s.Offers m .str d) (free : F.objs.get? "str" = none) (free' : F.structs.get? "str" = none)
    (isOut : F.objs.get? "out" = some acc) (isSep : F.objs.get? "sep" = some q)
    (isCount : F.objs.get? "i" = some i) (isElement : F.objs.get? "e" = some e) (distinct : e ≠ acc)
    (later : s.heap.Grows base) (sound : base.Sound) (grows : base.Grows t.heap) (there : base.Has (.box q))
    (separates : base.value q = .str sep) (counts : base.Stores t.heap i (.int (.ofNat k))) (small : k < 2 ^ 63)
    (holds : base.Stores t.heap e v) (knows : base.Knows v) (within : k < texts.length)
    (shown : base.display cfg.dataLimit v = some texts[k])
    (stores : base.Stores t.heap acc (.str (sep.intercalate (texts.take k))))
    (q₁ q₂ q₃ q₄ q₅ q₆ q₇ q₈ q₉ q₁₀ q₁₁ q₁₂ : Position) :
    Ends (runBlock (evalStmt cfg (fuel + 3) ⟨m₀, calls⟩)
      [.conditional q₁ [(.binary q₂ .greater (.ident q₃ "i") (.literal q₄ (.int 0)),
          [.assign q₅ (.compute .add) [.ident q₆ "out"] [.ident q₇ "sep"]])] none,
        .assign q₈ (.compute .add) [.ident q₉ "out"] [.call q₁₀ (.ident q₁₁ "str") [.ident q₁₂ "e"]]]) t
      fun flow v => flow = .done ∧ InFrame cfg s m F v ∧ base.Grows v.heap ∧
        base.Stores v.heap acc (.str (sep.intercalate (texts.take (k + 1)))) := by
  let opened : String := if 0 < k then sep.intercalate (texts.take k) ++ sep else ""
  let Q (flow : Flow) (h : Heap) : Prop := flow = .done ∧ base.Grows h ∧ base.Stores h e v ∧
    base.Stores h acc (.str opened)
  have inner {name : String} {b : BoxId} (found : F.objs.get? name = some b) :
      (F.inner .empty).objs.get? name = some b := by
    rw [Frame.get?_inner, found]
    rfl
  refine .runBlock_done (P := fun t => InFrame cfg s m F t ∧ base.Grows t.heap ∧ base.Stores t.heap e v ∧
    base.Stores t.heap acc (.str opened))
    ((conditional (Q := Q) inside site room (decide (0 < k)) ?tests ?yes ?no).mono fun _ _ ended =>
      ⟨ended.2.1, ended.1, ended.2.2⟩) ?shows
  case tests =>
    intro t' inside' same
    exact inside'.positive site (inner isCount) (same ▸ counts.there) (same ▸ counts.value) small fuel calls _ _ _
  case yes =>
    intro isLater t' inside' grows'
    have added := inside'.identComes site (inner isSep) fuel calls q₇
    rw [((grows.trans grows').value_eq there).trans separates] at added
    have written : opened = sep.intercalate (texts.take k) ++ sep := if_pos (of_decide_eq_true isLater)
    refine .runBlock_last ((computeTo (w := .str opened) site (inner isOut) (grows.trans grows')
      (stores.grown grows') added ?_ (fun _ => trivial) q₅ q₆).mono ?_) fun _ _ ended _ => ⟨ended.1, rfl, ended.2.2⟩
    · intro h
      rw [written]
      rfl
    · rintro flow t'' ⟨rfl, inside'', grows'', stores', k', later', result⟩
      refine ⟨⟨.empty, inside''⟩, rfl, grows'', ?_, stores'⟩
      rw [result]
      exact ((holds.grown grows').grown later').write_of_ne distinct _
  case no =>
    intro isFirst h grows'
    obtain rfl : k = 0 := Nat.eq_zero_of_not_pos (of_decide_eq_false isFirst)
    exact ⟨rfl, grows.trans grows', holds.grown grows', stores.grown grows'⟩
  case shows =>
    rintro t' ⟨inside, grows, holds, stores⟩
    have shown' : t'.heap.display cfg.dataLimit (t'.heap.value e) = some texts[k] := by
      rw [holds.value, ← shown]
      exact display_congr ((sound.preserves grows).canonical_eq _ knows)
    have added := inside.text site offers (later.trans grows) free free' isElement
      ((isSome_display_iff room).1 (Option.isSome_of_eq_some shown')) shown' fuel calls q₁₀ q₁₁ q₁₂
    let result : Value := .str (sep.intercalate (texts.take (k + 1)))
    refine .runBlock_last ((computeTo (w := result) site isOut grows stores added ?_ (fun _ => trivial) q₈
      q₉).mono ?_) fun _ _ ended _ => ⟨rfl, ended.2⟩
    · intro h
      change _ = (Except.ok (Value.str _), h)
      rw [← intercalate_take_succ sep within]
      rfl
    · rintro flow t'' ⟨rfl, inside', grows', stores', -⟩
      exact ⟨rfl, inside', grows', stores'⟩

/-- The body of the function returns the displayed forms of the elements with the separator between them. -/
theorem join (inside : InFrame cfg s m (begun (.ofList [("xs", b), ("sep", q)])) u) (site : s.Site m₀ m)
    (room : cfg.dataLimit ≠ 0) (offers : s.Offers m .str d) (free : s.Unused m "out")
    (grows : s.heap.Grows u.heap) (there : u.heap.Has (.box b)) (isList : u.heap.value b = .list l)
    (there' : u.heap.Has (.box q)) (separates : u.heap.value q = .str sep)
    (small : (u.heap.items l).size < 2 ^ 63)
    (shown : ((Value.list l).elements u.heap).mapM (u.heap.display cfg.dataLimit) = some texts) :
    Ends (runBlock (evalStmt cfg (fuel + 4) ⟨m₀, calls⟩) Library.joinDecl.body) u fun flow t =>
      (∃ F, InFrame cfg s m F t) ∧ u.heap.Grows t.heap ∧ ∃ r, flow = .returnValue (some r) ∧
        t.heap.value r = .str (sep.intercalate texts) := by
  let base := u.heap
  let joined (k : Nat) : Value := .str (sep.intercalate (texts.take k))
  have sound := inside.sound
  have each := List.forall₂_iff_get.1 (forall₂_of_mapM shown)
  let F' (acc : BoxId) := (begun (.ofList [("xs", b), ("sep", q)])).declare "out" acc
  refine .runBlock_done (P := fun t => ∃ acc, InFrame cfg s m (F' acc) t ∧ base.Grows t.heap ∧
    base.Stores t.heap acc (joined 0)) ?_ ?_
  · exact inside.assignLiteral site (free.getObj? rfl) (w := .str "") trivial rfl _ _ _
  rintro t ⟨acc, inside, grows₁, stores⟩
  refine .runBlock_done (P := fun t => InFrame cfg s m (F' acc) t ∧ base.Grows t.heap ∧
    base.Stores t.heap acc (joined texts.length)) ?_ ?_
  · have size : (base.items l).size = texts.length := (Value.length_elements base (.list l)).symm.trans each.1
    refine size ▸ inside.accumulates (A := joined) (x := "xs") (b := b) site sound grows₁ (by decide) rfl there
      isList stores ?_ _ _
    intro k d at_k t i e _ distinct inside grows₂ counts holds stores
    have element : ((Value.list l).elements base)[k]? = some (base.value d) := by
      rw [← Value.elementAt?_eq, Value.elementAt?, at_k]
      rfl
    obtain ⟨within, same⟩ := List.getElem?_eq_some_iff.1 element
    have within' := each.1 ▸ within
    refine joinTurn inside site room offers rfl rfl rfl rfl rfl rfl distinct grows sound grows₂ there' separates
      counts ?_ holds (sound.value d) within' ?_ stores _ _ _ _ _ _ _ _ _ _ _ _
    · exact Nat.lt_trans (size ▸ within') small
    · rw [← same]
      exact each.2 k within within'
  rintro t ⟨inside, grows₁, stores⟩
  refine (inside.returnVariable site (x := "out") rfl _ _).mono ?_
  rintro _ v ⟨left, later, r, rfl, holds⟩
  refine ⟨left, grows₁.trans later, r, rfl, ?_⟩
  rw [holds, stores.value]
  exact congrArg (fun texts => Value.str (sep.intercalate texts)) List.take_length

end Join

end InFrame

end Shiba

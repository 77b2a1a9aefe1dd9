import Shiba.Proofs.RoundTrip.Filing
import Shiba.Run

/-!
# Canonical forms are read back

A value made of booleans, integers, strings, lists and dictionaries is written as the text of an
expression.  Evaluating that expression, in any state, builds a value like the one that was written,
from new parts alone.

* `Data.Yields`: evaluating an expression gives a box with a given tree and changes nothing that was
  there.
* `Data.yields_of_same`: the expression a tree is read as yields it, by induction on the tree.
* `canonical_reads_back`: the statement, from a value through its canonical form to an equal value.

The values it is about are those that stand for a plain tree.  Dictionaries that are filled by filing
one entry after another are such values: one entry more keeps them so (`HeapM.gives_dictSet`), and
`HeapM.gives_store` builds one from any tree.
-/

namespace Shiba

/-! ## Expressions up to positions -/

namespace Expr

variable {e : Expr} {p : Position}

theorem same_literal_iff {value : Literal} :
    e.Same (.literal p value) ↔ ∃ p', e = .literal p' value := by
  cases e <;> simp [Same, erase]

theorem same_unary_iff {op : UnaryOp} {operand : Expr} : e.Same (.unary p op operand) ↔
    ∃ p' operand', e = .unary p' op operand' ∧ operand'.Same operand := by
  cases e <;> simp [Same, erase]

theorem eraseAll_eq_iff {es es' : List Expr} :
    eraseAll es = eraseAll es' ↔ List.Forall₂ Same es es' := by
  refine ⟨fun same => ?_, eraseAll_congr⟩
  induction es generalizing es' with
  | nil => cases es' <;> simp_all [eraseAll]
  | cons e es ih => cases es' <;> simp_all [eraseAll, Same]

theorem eraseEntries_eq_iff {es es' : List (Expr × Expr)} : eraseEntries es = eraseEntries es' ↔
    List.Forall₂ (fun a b => Same a.1 b.1 ∧ Same a.2 b.2) es es' := by
  refine ⟨fun same => ?_, eraseEntries_congr⟩
  induction es generalizing es' with
  | nil => cases es' <;> simp_all [eraseEntries]
  | cons e es ih => cases es' <;> simp_all [eraseEntries, Same]

theorem same_list_iff {elements : List Expr} : e.Same (.list p elements) ↔
    ∃ p' elements', e = .list p' elements' ∧ List.Forall₂ Same elements' elements := by
  cases e <;> simp [Same, erase, eraseAll_eq_iff]

theorem same_dict_iff {entries : List (Expr × Expr)} : e.Same (.dict p entries) ↔
    ∃ p' entries', e = .dict p' entries' ∧
      List.Forall₂ (fun a b => Same a.1 b.1 ∧ Same a.2 b.2) entries' entries := by
  cases e <;> simp [Same, erase, eraseEntries_eq_iff]

end Expr

/-! ## States in which only the heap has grown -/

/-- Nothing but the heap has changed. -/
def State.HeapOnly (s t : State) : Prop := t = s.withHeap t.heap

/-- Nothing but the heap has changed, and all that was in it is as it was. -/
structure State.Grown (s t : State) : Prop where
  only : s.HeapOnly t
  heap : s.heap.Kept ⊤ t.heap

namespace State

variable {s t u : State}

theorem HeapOnly.trans (first : s.HeapOnly t) (second : t.HeapOnly u) : s.HeapOnly u := by
  rw [HeapOnly, second, first]
  rfl

theorem Grown.refl (s : State) : s.Grown s := ⟨rfl, .refl ⊤ s.heap⟩

theorem Grown.trans (first : s.Grown t) (second : t.Grown u) : s.Grown u :=
  ⟨first.only.trans second.only, first.heap.trans second.heap⟩

end State

namespace Gives

open Eval

variable {α : Type} {s : State}

theorem onHeap {act : HeapM α} {Q : α → Heap → Prop} (gives : Gives act s.heap Q) :
    Gives (Eval.onHeap act) s fun a t => s.HeapOnly t ∧ Q a t.heap := by
  obtain ⟨a, h, run, after⟩ := gives
  refine ⟨a, s.withHeap h, ?_, rfl, after⟩
  rw [onHeap_apply, run]

/-- A step on the heap that leaves all that was there as it was. -/
theorem grown {act : HeapM α} {Q : α → Heap → Prop}
    (gives : Gives act s.heap fun a h => s.heap.Kept ⊤ h ∧ Q a h) :
    Gives (Eval.onHeap act) s fun a t => s.Grown t ∧ Q a t.heap :=
  gives.onHeap.mono fun _ _ ⟨only, kept, after⟩ => ⟨⟨only, kept⟩, after⟩

theorem located {m : ModuleId} {p : Position} {act : Eval α} {Q : α → State → Prop}
    (gives : Gives act s Q) : Gives (Eval.located m p act) s Q := by
  obtain ⟨a, t, run, after⟩ := gives
  refine ⟨a, t, ?_, after⟩
  rw [Eval.located, run]

end Gives

/-! ## Evaluation -/

namespace Data

/-- Evaluating an expression gives a box with a tree in it, whose dictionaries are new, and nothing that
was there changes. -/
def Yields (cfg : Config) (fuel : Nat) (e : Expr) (x : Data) : Prop :=
  ∀ ctx s, Gives (evalExpr cfg fuel ctx e) s fun b t =>
    s.Grown t ∧ t.heap.HoldsBox s.heap.Fresh b x

variable {cfg : Config} {n fuel : Nat} {x : Data} {e : Expr} {p : Position}

theorem yields_succ (gives : ∀ ctx s, Gives (Eval.expr (evaluators cfg fuel) cfg ctx e) s fun b t =>
    s.Grown t ∧ t.heap.HoldsBox s.heap.Fresh b x) : Yields cfg (fuel + 1) e x := by
  intro ctx s
  rw [evalExpr_succ]
  exact gives ctx s

/-- The last step of an expression: its value is put into a box. -/
theorem gives_alloc {s t : State} {v : Value} (plain : x.Plain n) (grown : s.Grown t)
    (holds : t.heap.Holds s.heap.Fresh v x) :
    Gives (Eval.alloc v) t fun b u => s.Grown u ∧ u.heap.HoldsBox s.heap.Fresh b x := by
  refine (Gives.grown (HeapM.gives_alloc plain holds)).mono fun b u ⟨grown', box⟩ => ?_
  exact ⟨grown.trans grown', box⟩

theorem yields_bool {b : Bool} : Yields cfg (fuel + 1) (.literal p (.bool b)) (.bool b) :=
  yields_succ fun _ s => .located (gives_alloc (.bool (n := 0)) (.refl s) rfl)

theorem yields_str {s : String} : Yields cfg (fuel + 1) (.literal p (.str s)) (.str s) :=
  yields_succ fun _ s => .located (gives_alloc (.str (n := 0)) (.refl s) rfl)

theorem yields_int {i : Int64} (notLeast : i ≠ Int64.minValue) :
    Yields cfg (fuel + 1) (.literal p (.int i)) (.int i) :=
  yields_succ fun _ s => .located (gives_alloc (.int (n := 0) notLeast) (.refl s) rfl)

/-- The negation of the negation of an integer is the integer. -/
theorem yields_neg {i : Int64} (notLeast : i ≠ Int64.minValue)
    (operand : Yields cfg fuel e (.int (-i))) :
    Yields cfg (fuel + 1) (.unary p .minus e) (.int i) := by
  have negated : Integer.negate (-i) = i := by
    rw [Integer.negate, toInt_neg notLeast, Int.neg_neg, Int64.ofInt_toInt]
  refine yields_succ fun ctx s => .located (.bind (operand ctx s) fun b t ⟨grown, box⟩ => ?_)
  have read : t.heap.value b = .int (-i) := Heap.holds_int.1 box.2
  refine .get_bind ?_
  rw [read]
  have applied : Gives (Eval.onHeap (UnaryOp.minus.apply (.int (-i)))) t fun v u =>
      t.Grown u ∧ v = .int i := by
    have run : Gives (UnaryOp.minus.apply (.int (-i))) t.heap fun v h =>
        t.heap.Kept ⊤ h ∧ v = .int i :=
      .pure ⟨.refl ⊤ _, congrArg Value.int negated⟩
    exact run.grown
  refine .bind applied ?_
  rintro v u ⟨grown', rfl⟩
  exact gives_alloc (.int (n := 0) notLeast) (grown.trans grown') rfl

theorem gives_copy {s : State} {among : DictId → Prop} {b : BoxId} (plain : x.Plain n)
    (holds : s.heap.HoldsBox among b x) :
    Gives (Eval.copy b) s fun b' t => s.Grown t ∧ t.heap.HoldsBox among b' x :=
  .grown (HeapM.gives_copy plain holds)

theorem yields_list {es : List Expr} {xs : List Data} (plain : ∀ x ∈ xs, x.Plain n)
    (each : List.Forall₂ (Yields cfg fuel) es xs) :
    Yields cfg (fuel + 1) (.list p es) (.list xs) := by
  refine yields_succ fun ctx s => .located ?_
  have stable : ∀ x ∈ xs, ∀ {t u : State} {b : BoxId}, t.Grown u →
      t.heap.HoldsBox s.heap.Fresh b x → u.heap.HoldsBox s.heap.Fresh b x :=
    fun x member _ _ _ grown box => box.grown grown.heap (plain x member)
  have step : ∀ e, ∀ x ∈ xs, Yields cfg fuel e x → ∀ t, s.Grown t →
      Gives (do Eval.copy (← (evaluators cfg fuel).expr ctx e)) t fun b u =>
        t.Grown u ∧ u.heap.HoldsBox s.heap.Fresh b x := by
    intro e x member yields t grown
    refine .bind (yields ctx t) fun b u ⟨grown', box⟩ => ?_
    have box := box.mono (plain x member) (Heap.Fresh.antitone grown.heap)
    refine (gives_copy (plain x member) box).mono fun b' v ⟨grown'', box'⟩ => ?_
    exact ⟨grown'.trans grown'', box'⟩
  have elements := Gives.mapM State.Grown.refl State.Grown.trans
    (fun t b x => t.heap.HoldsBox s.heap.Fresh b x) each stable step
  refine .bind elements fun boxes t ⟨grown, holds⟩ => ?_
  refine .bind (.grown (HeapM.gives_allocList plain holds)) fun l u ⟨grown', holds'⟩ => ?_
  exact gives_alloc (.list plain) (grown.trans grown') holds'

/-- One entry of a dictionary: its key and its value are evaluated, and it is filed. -/
def fileEntry (cfg : Config) (fuel : Nat) (ctx : Context) (d : DictId) (e : Expr × Expr) :
    Eval Unit := do
  let key ← evalExpr cfg fuel ctx e.1
  let value ← Eval.copy (← evalExpr cfg fuel ctx e.2)
  Eval.onHeap (HeapM.dictSet cfg.dataLimit d key value)

section

variable {s : State} {start : Heap} {d : DictId} {done : List (Data × Data)}

theorem gives_fileEntry (ctx : Context) {a : Expr × Expr} {b : Data × Data} (le : n ≤ cfg.dataLimit)
    (plain : b.1.Plain n ∧ b.2.Plain n) (filling : HeapM.Filling start d n s.heap done)
    (key : Yields cfg fuel a.1 b.1) (value : Yields cfg fuel a.2 b.2) :
    Gives (fileEntry cfg fuel ctx d a) s fun _ t =>
      s.HeapOnly t ∧ HeapM.Filling start d n t.heap (put b.1 b.2 done) := by
  refine .bind (key ctx s) fun key t ⟨grown, keyBox⟩ => ?_
  refine .bind (value ctx t) fun value u ⟨grown', valueBox⟩ => ?_
  refine .bind (gives_copy plain.2 valueBox) fun copied v ⟨grown'', copiedBox⟩ => ?_
  have filling := filling.grown grown.heap
  have kept := grown'.trans grown''
  have filed := (filling.grown kept.heap).gives_dictSet plain.1 plain.2 le
    (keyBox.grown kept.heap plain.1) (copiedBox.mono plain.2 filling.fresh_le)
  exact filed.onHeap.mono fun _ w ⟨only, filling⟩ => ⟨(grown.trans kept).only.trans only, filling⟩

/-- The entries of a dictionary, none of which has the key of another one, are filed in order. -/
theorem gives_forM_fileEntry (ctx : Context) {es : List (Expr × Expr)} {xs : List (Data × Data)}
    (le : n ≤ cfg.dataLimit) (plain : ∀ e ∈ xs, e.1.Plain n ∧ e.2.Plain n)
    (filling : HeapM.Filling start d n s.heap done) (distinct : ((done ++ xs).map (·.1.key)).Nodup)
    (each : List.Forall₂ (fun a b => Yields cfg fuel a.1 b.1 ∧ Yields cfg fuel a.2 b.2) es xs) :
    Gives (es.forM (fileEntry cfg fuel ctx d)) s fun _ t =>
      s.HeapOnly t ∧ HeapM.Filling start d n t.heap (done ++ xs) := by
  induction each generalizing s done with
  | nil =>
    rw [List.append_nil]
    exact .pure ⟨rfl, filling⟩
  | @cons a b es xs here _ ih =>
    have ⟨plainHere, plainLater⟩ := List.forall_mem_cons.1 plain
    have absent : b.1.key ∉ done.map (·.1.key) := by
      rw [List.map_append, List.map_cons, List.nodup_middle, List.nodup_cons] at distinct
      exact fun member => distinct.1 (List.mem_append_left _ member)
    have filed := gives_fileEntry ctx le plainHere filling here.1 here.2
    rw [put_of_notMem absent] at filed
    rw [List.append_cons] at distinct ⊢
    refine .bind filed fun _ t ⟨only, filling⟩ => ?_
    refine (ih plainLater filling distinct).mono fun _ u ⟨only', filling⟩ => ?_
    exact ⟨only.trans only', filling⟩

end

theorem yields_dict {es : List (Expr × Expr)} {xs : List (Data × Data)} (le : n ≤ cfg.dataLimit)
    (plain : (Data.dict xs).Plain (n + 1))
    (each : List.Forall₂ (fun a b => Yields cfg fuel a.1 b.1 ∧ Yields cfg fuel a.2 b.2) es xs) :
    Yields cfg (fuel + 1) (.dict p es) (.dict xs) := by
  refine yields_succ fun ctx s => .located ?_
  refine .bind (HeapM.gives_allocDict_empty n).onHeap fun d t ⟨only, filling⟩ => ?_
  have filed := gives_forM_fileEntry ctx le plain.entries filling plain.distinct each
  refine .bind filed fun _ u ⟨only', filling⟩ => ?_
  exact gives_alloc plain ⟨only.trans only', filling.kept⟩ filling.holds_dict

/-- The expression a tree is read as yields it. -/
theorem yields_of_same (plain : x.Plain n) (le : n ≤ cfg.dataLimit) (enough : n < fuel)
    (same : e.Same x.expr) : Yields cfg fuel e x := by
  obtain ⟨fuel, rfl⟩ : ∃ k, fuel = k + 1 := ⟨fuel - 1, by omega⟩
  induction plain generalizing e fuel with
  | bool =>
    obtain ⟨p, rfl⟩ := Expr.same_literal_iff.1 same
    exact yields_bool
  | @int _ i notLeast =>
    rw [expr] at same
    split at same
    · obtain ⟨p, operand, rfl, sameOperand⟩ := Expr.same_unary_iff.1 same
      obtain ⟨p', rfl⟩ := Expr.same_literal_iff.1 sameOperand
      obtain ⟨fuel, rfl⟩ : ∃ k, fuel = k + 1 := ⟨fuel - 1, by omega⟩
      exact yields_neg notLeast (yields_int (neg_ne_minValue notLeast))
    · obtain ⟨p, rfl⟩ := Expr.same_literal_iff.1 same
      exact yields_int notLeast
  | str =>
    obtain ⟨p, rfl⟩ := Expr.same_literal_iff.1 same
    exact yields_str
  | @list n xs plain ih =>
    obtain ⟨fuel, rfl⟩ : ∃ k, fuel = k + 1 := ⟨fuel - 1, by omega⟩
    obtain ⟨p, elements, rfl, each⟩ := Expr.same_list_iff.1 same
    rw [exprs_eq_map, List.forall₂_map_right_iff] at each
    refine yields_list plain (Heap.forall₂_imp_of_mem (fun e x member same => ?_) each)
    exact ih x member (by omega) same fuel (by omega)
  | @dict n xs keys values distinct ihKeys ihValues =>
    obtain ⟨fuel, rfl⟩ : ∃ k, fuel = k + 1 := ⟨fuel - 1, by omega⟩
    obtain ⟨p, entries, rfl, each⟩ := Expr.same_dict_iff.1 same
    rw [entryExprs_eq_map, List.forall₂_map_right_iff] at each
    refine yields_dict (by omega) (.dict keys values distinct)
      (Heap.forall₂_imp_of_mem (fun a b member same => ⟨?_, ?_⟩) each)
    · exact ihKeys b member (by omega) same.1 fuel (by omega)
    · exact ihValues b member (by omega) same.2 fuel (by omega)

end Data

/-- The canonical form of a value that stands for a plain tree is a program of one statement, an
expression.  In any state it evaluates to a value that is equal to the one written, has the same
canonical form and stands for the same tree, the entries of its dictionaries in the same order.  No
binding changes, and nothing that was in the heap does. -/
theorem canonical_reads_back {cfg : Config} {s : State} {v : Value} {x : Data}
    (plain : x.Plain cfg.dataLimit) (holds : s.heap.Holds ⊤ v x) :
    ∃ text e, s.heap.canonical cfg.dataLimit v = some text ∧
      Program.parse text = .ok [.expr e] ∧
      ∀ fuel > cfg.dataLimit, ∀ ctx, ∃ b t, evalExpr cfg fuel ctx e s = (.ok b, t) ∧
        t.heap.equal cfg.dataLimit (t.heap.value b) v = .ok true ∧
        t.heap.canonical cfg.dataLimit (t.heap.value b) = some text ∧
        s.heap.data cfg.dataLimit v = some x ∧
        t.heap.data cfg.dataLimit (t.heap.value b) = some x ∧
        t.registry = s.registry ∧ t.builtins = s.builtins ∧ t.output = s.output ∧
        s.heap.Kept ⊤ t.heap := by
  obtain ⟨e, parsed, same⟩ := Data.parse_text plain
  refine ⟨x.text, e, holds.canonical plain le_rfl, parsed, fun fuel enough ctx => ?_⟩
  obtain ⟨b, t, run, grown, box⟩ := Data.yields_of_same plain le_rfl enough same ctx s
  have holds' : t.heap.Holds ⊤ v x := holds.kept plain grown.heap le_rfl
  refine ⟨b, t, run, box.2.equal plain le_rfl holds', box.2.canonical plain le_rfl,
    holds.data plain le_rfl, box.2.data plain le_rfl, ?_, ?_, ?_, grown.heap⟩
  all_goals rw [grown.only]; rfl

/-- A dictionary in which a key with a quote and a line break comes twice, and another key is itself a
dictionary. -/
def Data.sample : Data :=
  .dict [
    (.str "a\n\"b", .list [.int (-5), .bool true]),
    (.dict [(.int 1, .str "")], .int 7),
    (.str "a\n\"b", .list [.str "x", .int (-9)])]

theorem Data.storable_sample (n : Nat) : Data.sample.Storable (n + 3) := by
  have inner : (Data.dict [(.int 1, .str "")]).Storable (n + 2) := by
    refine .dict ?_ ?_ <;> simp only [List.forall_mem_cons]
    · exact ⟨.int (by decide), by simp⟩
    · exact ⟨.str, by simp⟩
  have first : (Data.list [.int (-5), .bool true]).Storable (n + 2) := by
    refine .list ?_
    simp only [List.forall_mem_cons]
    exact ⟨.int (by decide), .bool, by simp⟩
  have last : (Data.list [.str "x", .int (-9)]).Storable (n + 2) := by
    refine .list ?_
    simp only [List.forall_mem_cons]
    exact ⟨.str, .int (by decide), by simp⟩
  refine .dict ?_ ?_ <;> simp only [List.forall_mem_cons]
  · exact ⟨.str, inner, .str, by simp⟩
  · exact ⟨first, .int (by decide), last, by simp⟩

theorem canonical_reads_back_sample :
    ∃ v h e, HeapM.store Config.standard.dataLimit Data.sample State.initial.heap = (.ok v, h) ∧
      Program.parse "\x7b\"a\\n\\\"b\": [\"x\", -9], \x7b1: \"\"\x7d: 7\x7d" = .ok [.expr e] ∧
      ∀ fuel > Config.standard.dataLimit, ∀ ctx, ∃ b t,
        evalExpr Config.standard fuel ctx e (State.initial.withHeap h) = (.ok b, t) ∧
        t.heap.equal Config.standard.dataLimit (t.heap.value b) v = .ok true := by
  have storable : Data.sample.Storable Config.standard.dataLimit := Data.storable_sample 4997
  obtain ⟨v, h, run, -, holds⟩ := HeapM.gives_store storable le_rfl State.initial.heap
  have holds' : h.Holds ⊤ v Data.sample.filed := holds.mono storable.plain le_top
  obtain ⟨text, e, written, parsed, evaluates⟩ :=
    canonical_reads_back (s := State.initial.withHeap h) storable.plain holds'
  have form : Data.sample.filed.text =
      "\x7b\"a\\n\\\"b\": [\"x\", -9], \x7b1: \"\"\x7d: 7\x7d" := by
    decide +kernel
  cases (holds'.canonical storable.plain le_rfl).symm.trans written
  rw [form] at parsed
  refine ⟨v, h, e, run, parsed, fun fuel enough ctx => ?_⟩
  obtain ⟨b, t, run', equal, -⟩ := evaluates fuel enough ctx
  exact ⟨b, t, run', equal⟩

end Shiba

import Mathlib.Algebra.BigOperators.Group.List.Basic
import Shiba.Proofs.IntegerRange

/-!
# The integer functions of the module `math` and the operators

The function `add` sums integers without bounds and wraps around once, and `pow` multiplies by squaring.
The operators `+` and `*` wrap around at each step.  The results are the same, since wrapping around
commutes with sums and products.

* `BinaryOp.fold` takes values one after another with an operator, as a program would.
* `BinaryOp.fold_words`: if it makes no difference whether the left operand has been wrapped around, it is
  enough to wrap around once, behind the last step.
* `Math.total_words` and `Math.total_other`: integers are summed, and the first value that is no integer
  is blamed.
* `host_arithmetic`: what the two functions do with their arguments, and what the operators do with them.
-/

namespace Shiba

namespace BinaryOp

/-- Values taken one after another with an operator, from a first one on. -/
def fold (limit : Nat) (op : BinaryOp) (first : Value) (values : List Value) : HeapM Value :=
  values.foldlM (applyText limit op.text) first

variable {op : BinaryOp} {f : Int → Int → Int}

/-- An operator that computes `f` on integers without bounds and then wraps around may as well wrap around
once, when all values have been taken. -/
theorem fold_words (limit : Nat) (h : Heap)
    (computes : ∀ a b : Int64, Integer.compute? op a b = some (.ok (.ofInt (f a.toInt b.toInt))))
    (wraps : ∀ z y : Int, Int64.ofInt (f (Int64.ofInt z).toInt y) = .ofInt (f z y))
    (first : Int) (words : List Int64) :
    fold limit op (.int (.ofInt first)) (words.map .int) h =
      (.ok (.int (.ofInt ((words.map Int64.toInt).foldl f first))), h) := by
  induction words generalizing first with
  | nil => rfl
  | cons x words ih =>
    have applied : applyText limit op.text (.int (.ofInt first)) (.int x) h =
        (.ok (.int (.ofInt (f first x.toInt))), h) := by
      rw [applyText, ofText?_text, ← wraps]
      exact apply_of_compute? limit h (computes _ _)
    rw [List.map_cons, fold, List.foldlM_cons, HeapM.run_bind applied]
    exact ih _

/-- Adding integers one after another leaves the word of their sum. -/
theorem fold_add (limit : Nat) (h : Heap) (words : List Int64) :
    fold limit .add (.int 0) (words.map .int) h =
      (.ok (.int (.ofInt (words.map Int64.toInt).sum)), h) := by
  have wraps (z y : Int) : Int64.ofInt ((Int64.ofInt z).toInt + y) = .ofInt (z + y) := by
    rw [Int64.ofInt_add, Int64.ofInt_toInt, ← Int64.ofInt_add]
  rw [List.sum_eq_foldl]
  exact fold_words limit h (fun _ _ => rfl) wraps 0 words

/-- Multiplying one by an integer so often leaves the word of the power. -/
theorem fold_mul (limit : Nat) (h : Heap) (x : Int64) (n : Nat) :
    fold limit .mul (.int 1) (List.replicate n (.int x)) h =
      (.ok (.int (.ofInt (x.toInt ^ n))), h) := by
  have wraps (z y : Int) : Int64.ofInt ((Int64.ofInt z).toInt * y) = .ofInt (z * y) := by
    rw [Int64.ofInt_mul, Int64.ofInt_toInt, ← Int64.ofInt_mul]
  have computes (a b : Int64) :
      Integer.compute? .mul a b = some (.ok (.ofInt (a.toInt * b.toInt))) := rfl
  have folded := fold_words limit h computes wraps 1 (List.replicate n x)
  rw [List.map_replicate, List.map_replicate, ← List.prod_eq_foldl, List.prod_replicate] at folded
  exact folded

end BinaryOp

/-! ## Sums -/

namespace Math

/-- Values are integers, or one of them is the first that is none. -/
theorem words_or_other (values : List Value) :
    (∃ words : List Int64, values = words.map .int) ∨
      ∃ (words : List Int64) (v : Value) (rest : List Value),
        values = words.map .int ++ v :: rest ∧ ∀ n, v ≠ .int n := by
  induction values with
  | nil => exact .inl ⟨[], rfl⟩
  | cons v values ih =>
    by_cases isWord : ∃ n, v = .int n
    · obtain ⟨n, rfl⟩ := isWord
      rcases ih with ⟨words, rfl⟩ | ⟨words, v, rest, rfl, other⟩
      · exact .inl ⟨n :: words, rfl⟩
      · exact .inr ⟨n :: words, v, rest, rfl, other⟩
    · exact .inr ⟨[], v, values, rfl, not_exists.1 isWord⟩

/-- Boxes that all hold integers hold a list of them. -/
theorem exists_words {h : Heap} {args : List BoxId} (ints : ∀ b ∈ args, ∃ n, h.value b = .int n) :
    ∃ words : List Int64, args.map h.value = words.map .int := by
  rcases words_or_other (args.map h.value) with isWords | ⟨words, v, rest, values, other⟩
  · exact isWords
  · have member : v ∈ args.map h.value := values ▸ List.mem_append_right _ List.mem_cons_self
    obtain ⟨b, given, rfl⟩ := List.mem_map.1 member
    obtain ⟨n, isWord⟩ := ints b given
    exact absurd isWord (other n)

/-- The order of integers makes no difference to their sum. -/
theorem sum_words_of_perm {words words' : List Int64}
    (perm : (words.map Value.int).Perm (words'.map .int)) :
    (words.map Int64.toInt).sum = (words'.map Int64.toInt).sum :=
  (((List.map_perm_map_iff fun _ _ => Value.int.inj).1 perm).map Int64.toInt).sum_eq

theorem total_append (sum : Int) (words : List Int64) (rest : List Value) :
    total sum (words.map .int ++ rest) = total (sum + (words.map Int64.toInt).sum) rest := by
  induction words generalizing sum with
  | nil => rw [List.map_nil, List.map_nil, List.nil_append, List.sum_nil, add_zero]
  | cons n words ih =>
    rw [List.map_cons, List.map_cons, List.cons_append, total, ih, List.sum_cons, add_assoc]

/-- Integers are summed. -/
theorem add_words (h : Heap) (words : List Int64) :
    add (words.map .int) h = (.ok (.int (.ofInt (words.map Int64.toInt).sum)), h) := by
  have summed := total_append 0 words []
  rw [List.append_nil, zero_add, total] at summed
  rw [add, summed]
  rfl

/-- The first value that is no integer is blamed. -/
theorem add_other (h : Heap) (words : List Int64) {v : Value} (other : ∀ n, v ≠ .int n)
    (rest : List Value) : add (words.map .int ++ v :: rest) h =
      (.error (.ofCause (.typeMismatch "i64" (h.typeName v))), h) := by
  rw [add, total_append]
  cases v with
  | int n => exact absurd rfl (other n)
  | nil | bool | float | str | list | dict | struct | function | method | builtin | module | structDef =>
    rfl

end Math

/-! ## The functions and the operators -/

namespace Builtin

open Eval

/-- A step that leaves the heap as it is leaves the state as it is. -/
theorem onHeap_of_run {α : Type} {act : HeapM α} {s : State} {result : Except Stop α}
    (run : act s.heap = (result, s.heap)) : onHeap act s = (result, s) := by
  rw [onHeap_apply, run]
  rfl

theorem run_mathAdd (cfg : Config) (args : List BoxId) (s : State) :
    mathAdd.perform cfg args s = onHeap (Math.add (args.map s.heap.value)) s := by
  rw [perform, bind_ok (run_mapM_read args s)]

/-- Integers are summed, and nothing is changed. -/
theorem run_mathAdd_words {s : State} {args : List BoxId} {words : List Int64} (cfg : Config)
    (values : args.map s.heap.value = words.map .int) :
    mathAdd.perform cfg args s = (.ok (.int (.ofInt (words.map Int64.toInt).sum)), s) := by
  rw [run_mathAdd, values]
  exact onHeap_of_run (Math.add_words s.heap words)

/-- An argument that is no integer stops the sum. -/
theorem run_mathAdd_other {s : State} {args : List BoxId} {words : List Int64} {v : Value}
    {rest : List Value} (cfg : Config) (values : args.map s.heap.value = words.map .int ++ v :: rest)
    (other : ∀ n, v ≠ .int n) : mathAdd.perform cfg args s =
      (.error (.ofCause (.typeMismatch "i64" (s.heap.typeName v))), s) := by
  rw [run_mathAdd, values]
  exact onHeap_of_run (Math.add_other s.heap words other rest)

/-- The power of integers is answered, and nothing is changed. -/
theorem run_mathPow {s : State} {a b : BoxId} {x n : Int64} (cfg : Config)
    (base : s.heap.value a = .int x) (exponent : s.heap.value b = .int n) (nonneg : 0 ≤ n) :
    mathPow.perform cfg [a, b] s = (.ok (.int (.ofInt (x.toInt ^ n.toInt.toNat))), s) := by
  have few : n.toInt.toNat < 2 ^ 64 := by
    have := n.toInt_lt
    omega
  have raised : Math.pow (.int x) (.int n) s.heap =
      (.ok (.int (.ofInt (x.toInt ^ n.toInt.toNat))), s.heap) := by
    rw [Math.pow, if_pos nonneg, Math.power_eq x few]
    rfl
  have readBase : read a s = (.ok (.int x), s) := by rw [← base]; rfl
  have readExponent : read b s = (.ok (.int n), s) := by rw [← exponent]; rfl
  rw [perform, bind_ok readBase, bind_ok readExponent]
  exact onHeap_of_run raised

end Builtin

/-- The integer functions of `math` agree with the operators, and change nothing.  For arguments that are
integers, `add` answers what adding them to zero with `+` leaves, and the same in whatever order they are
given.  It fails for a type exactly when some argument is no integer, and blames the first one.  For
integers `x` and `n`, of which `n` is not negative, `pow` answers what multiplying one by `x` with `*` leaves
after `n` steps. -/
theorem host_arithmetic (cfg : Config) (s : State) :
    (∀ args : List BoxId, (∀ b ∈ args, ∃ n, s.heap.value b = .int n) →
      ∃ sum, ∀ given : List BoxId, given.Perm args →
        Builtin.mathAdd.perform cfg given s = (.ok (.int sum), s) ∧
        ∀ limit h, BinaryOp.fold limit .add (.int 0) (given.map s.heap.value) h = (.ok (.int sum), h)) ∧
    (∀ args : List BoxId,
      (∃ expected actual t, Builtin.mathAdd.perform cfg args s =
        (.error (.ofCause (.typeMismatch expected actual)), t)) ↔
        ∃ b ∈ args, ∀ n, s.heap.value b ≠ .int n) ∧
    (∀ (before : List BoxId) (b : BoxId) (after : List BoxId),
      (∀ b ∈ before, ∃ n, s.heap.value b = .int n) → (∀ n, s.heap.value b ≠ .int n) →
        Builtin.mathAdd.perform cfg (before ++ b :: after) s =
          (.error (.ofCause (.typeMismatch "i64" (s.heap.typeName (s.heap.value b)))), s)) ∧
    (∀ (a b : BoxId) (x n : Int64), s.heap.value a = .int x → s.heap.value b = .int n → 0 ≤ n →
      ∃ power, Builtin.mathPow.perform cfg [a, b] s = (.ok (.int power), s) ∧
        ∀ limit h, BinaryOp.fold limit .mul (.int 1) (List.replicate n.toInt.toNat (.int x)) h =
          (.ok (.int power), h)) := by
  refine ⟨fun args ints => ?_, fun args => ⟨?_, ?_⟩, ?_, ?_⟩
  · obtain ⟨ns, values⟩ := Math.exists_words ints
    refine ⟨.ofInt (ns.map Int64.toInt).sum, fun given perm => ?_⟩
    obtain ⟨ns', values'⟩ := Math.exists_words fun b member => ints b (perm.mem_iff.1 member)
    have sameSum : (ns'.map Int64.toInt).sum = (ns.map Int64.toInt).sum :=
      Math.sum_words_of_perm (values ▸ values' ▸ perm.map s.heap.value)
    refine ⟨by rw [Builtin.run_mathAdd_words cfg values', sameSum], fun limit h => ?_⟩
    rw [values', BinaryOp.fold_add, sameSum]
  · rintro ⟨expected, actual, t, run⟩
    by_contra none
    push Not at none
    obtain ⟨ns, values⟩ := Math.exists_words none
    rw [Builtin.run_mathAdd_words cfg values] at run
    cases run
  · rintro ⟨b, member, other⟩
    rcases Math.words_or_other (args.map s.heap.value) with ⟨ns, values⟩ | ⟨ns, v, rest, values, other⟩
    · have isWord : s.heap.value b ∈ ns.map Value.int := values ▸ List.mem_map_of_mem member
      obtain ⟨n, -, isInt⟩ := List.mem_map.1 isWord
      exact absurd isInt.symm (other n)
    · exact ⟨_, _, _, Builtin.run_mathAdd_other cfg values other⟩
  · intro before b after ints other
    obtain ⟨ns, values⟩ := Math.exists_words ints
    have given : (before ++ b :: after).map s.heap.value =
        ns.map Value.int ++ s.heap.value b :: after.map s.heap.value := by
      rw [List.map_append, List.map_cons, values]
    exact Builtin.run_mathAdd_other cfg given other
  · intro a b x n base exponent nonneg
    exact ⟨_, Builtin.run_mathPow cfg base exponent nonneg, fun limit h => BinaryOp.fold_mul limit h x _⟩

/-- The greatest word and one add up to the least word in either order, a boolean is refused, and the power
of a negative base wraps around. -/
theorem host_arithmetic_extremes :
    let s : State := ⟨{ Heap.empty with
      boxes := #[.int .maxValue, .int 1, .bool true, .int (-3), .int 41] }, .empty, .ofList [], #[]⟩
    Builtin.mathAdd.perform .standard [⟨0⟩, ⟨1⟩] s = (.ok (.int .minValue), s) ∧
    Builtin.mathAdd.perform .standard [⟨1⟩, ⟨0⟩] s = (.ok (.int .minValue), s) ∧
    Builtin.mathAdd.perform .standard [⟨1⟩, ⟨2⟩] s =
      (.error (.ofCause (.typeMismatch "i64" "bool")), s) ∧
    Builtin.mathPow.perform .standard [⟨3⟩, ⟨4⟩] s = (.ok (.int 420491770248316829), s) := by
  intro s
  obtain ⟨adds, -, blames, powers⟩ := host_arithmetic .standard s
  obtain ⟨sum, same⟩ := adds [⟨0⟩, ⟨1⟩]
    (List.forall_mem_cons.2 ⟨⟨_, rfl⟩, List.forall_mem_singleton.2 ⟨_, rfl⟩⟩)
  have isLeast : sum = .minValue := by
    have folded := (same _ (.refl _)).2 0 .empty
    cases folded
    rfl
  obtain ⟨power, raised, folded⟩ := powers ⟨3⟩ ⟨4⟩ (-3) 41 rfl rfl (by decide)
  have isPower : power = 420491770248316829 := by
    have word := folded 0 .empty
    rw [BinaryOp.fold_mul] at word
    cases word
    decide
  subst isLeast isPower
  refine ⟨(same _ (.refl _)).1, (same _ (.swap _ _ _)).1, ?_, raised⟩
  exact blames [⟨1⟩] ⟨2⟩ [] (List.forall_mem_singleton.2 ⟨_, rfl⟩) nofun

end Shiba

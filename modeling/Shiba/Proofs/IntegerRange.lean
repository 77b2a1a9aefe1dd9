import Mathlib.Data.Int.Bitwise
import Mathlib.Data.Rat.Floor
import Shiba.Expr.Parser
import Shiba.Proofs.Blame.Jumps
import Shiba.Proofs.Reachable
import Shiba.Proofs.WordArithmetic

/-!
# Every integer is a word

The integers of a program are words of 64 bits with a sign, whatever holds them: a variable, a list, a
dictionary or a field.  What has to be shown is that nothing else happens to them than that they are kept in
range.  A literal that is too great is no program at all, and whatever computes an integer computes the
exact one and wraps it around.

* `Integer.wrap` brings an integer into range; `Integer.toInt_ofInt` is what makes a word of an integer.
* `BinaryOp.unbounded?`, `UnaryOp.unbounded?` and `Builtin.unbounded?`: what the operators and the functions
  compute, on integers without bounds.
* `Math.power_eq`: the power by squaring is the power.
* `Binary64.floor_eq`: the integer below a float is the one below the number it stands for.
* `integers_stay_in_range` goes through all there is that makes an integer.
-/

namespace Shiba

namespace Integer

/-- An integer that is a word. -/
def InRange (z : Int) : Prop := -2 ^ 63 ≤ z ∧ z ≤ 2 ^ 63 - 1

/-- An integer, wrapped around into the range of words. -/
def wrap (z : Int) : Int := (z + 2 ^ 63) % 2 ^ 64 - 2 ^ 63

theorem inRange_toInt (n : Int64) : InRange n.toInt :=
  ⟨n.le_toInt, Int.le_sub_one_of_lt n.toInt_lt⟩

/-- Making a word of an integer wraps it around. -/
theorem toInt_ofInt (z : Int) : (Int64.ofInt z).toInt = wrap z := by
  rw [Int64.toInt_ofInt, Int.bmod_def, wrap]
  simp only [Int64.size]
  split <;> omega

theorem toInt_ofNat (n : Nat) : (Int64.ofNat n).toInt = wrap n := by
  rw [← Int64.ofInt_eq_ofNat, toInt_ofInt]

theorem wrap_of_inRange {z : Int} (range : InRange z) : wrap z = z := by
  obtain ⟨low, high⟩ := range
  rw [wrap]
  omega

/-! ## Bits -/

/-- The bits of a word are the lowest bits of the integer. -/
theorem getLsbD_ofInt (z : Int) (i : Nat) :
    (BitVec.ofInt 64 z).getLsbD i = (decide (i < 64) && z.testBit i) := by
  cases z with
  | ofNat n =>
    rw [Int.ofNat_eq_natCast, BitVec.ofInt_natCast, BitVec.getLsbD_ofNat]
    rfl
  | negSucc n =>
    rw [BitVec.ofInt_negSucc_eq_not_ofNat, BitVec.getLsbD_not, BitVec.getLsbD_ofNat]
    by_cases inside : i < 64
    · simp only [inside, decide_true, Bool.true_and]
      rfl
    · simp only [inside, decide_false, Bool.false_and]

/-- An operation that goes bit by bit does so on words. -/
theorem eq_ofInt_of_bits {a b c : Int64} {z : Int} {f : Bool → Bool → Bool}
    (words : ∀ i, i < 64 → c.toBitVec.getLsbD i = f (a.toBitVec.getLsbD i) (b.toBitVec.getLsbD i))
    (integers : ∀ i, z.testBit i = f (a.toInt.testBit i) (b.toInt.testBit i)) : c = .ofInt z := by
  apply Int64.toBitVec_inj.1
  have bit (n : Int64) (i : Nat) (inside : i < 64) : n.toBitVec.getLsbD i = n.toInt.testBit i := by
    rw [← Int64.ofInt_toInt n, Int64.toBitVec_ofInt, getLsbD_ofInt, Int64.ofInt_toInt]
    simp only [inside, decide_true, Bool.true_and]
  apply BitVec.eq_of_getLsbD_eq
  intro i inside
  rw [words i inside, bit a i inside, bit b i inside, Int64.toBitVec_ofInt, getLsbD_ofInt, integers]
  simp only [inside, decide_true, Bool.true_and]

theorem complement_eq (a : Int64) : complement a = .ofInt (-a.toInt - 1) := by
  rw [complement, Int64.not_eq_neg_sub, Int64.ofInt_sub, Int64.ofInt_neg, Int64.ofInt_toInt]
  rfl

/-- A product by so great a power of two leaves nothing in the word. -/
theorem ofInt_mul_two_pow (x : Int) {n : Nat} (many : 64 ≤ n) : Int64.ofInt (x * 2 ^ n) = 0 := by
  obtain ⟨k, rfl⟩ := Nat.exists_eq_add_of_le many
  have whole : Int64.ofInt (2 ^ 64) = 0 := by decide
  rw [pow_add, Int64.ofInt_mul, Int64.ofInt_mul, whole, Int64.zero_mul, Int64.mul_zero]

end Integer

/-! ## Operators -/

/-- The result of an operator on integers without bounds, where there is one. -/
def BinaryOp.unbounded? (op : BinaryOp) (x y : Int) : Option Int :=
  match op with
  | .add => some (x + y)
  | .sub => some (x - y)
  | .mul => some (x * y)
  | .div => if y = 0 then none else some (x.tdiv y)
  | .mod => if y = 0 then none else some (x.tmod y)
  | .bitAnd => some (x.land y)
  | .bitOr => some (x.lor y)
  | .bitXor => some (x.xor y)
  | .shiftLeft => if y < 0 then none else some (x * 2 ^ y.toNat)
  | .shiftRight => if y < 0 then none else some (x >>> y.toNat)
  | _ => none

/-- The result of an operator on an integer without bounds, where there is one. -/
def UnaryOp.unbounded? (op : UnaryOp) (x : Int) : Option Int :=
  match op with
  | .plus => some x
  | .minus => some (-x)
  | .complement => some (-x - 1)
  | .not => none

namespace BinaryOp

variable {op : BinaryOp} {a b c : Int64}

/-- An operator computes the exact integer and makes a word of it. -/
theorem unbounded?_of_compute? (computed : Integer.compute? op a b = some (.ok c)) :
    ∃ z, op.unbounded? a.toInt b.toInt = some z ∧ c = .ofInt z := by
  have zero : b.toInt = 0 ↔ b = 0 := by rw [← Int64.toInt_inj]; rfl
  have negative : b.toInt < 0 ↔ b < 0 := by rw [Int64.lt_iff_toInt_lt]; rfl
  cases op with
  | add | sub | mul =>
    cases computed
    exact ⟨_, rfl, rfl⟩
  | div =>
    rw [Integer.compute?, Integer.quotient] at computed
    split at computed
    · cases computed
    · next nonzero =>
      cases computed
      exact ⟨_, if_neg (mt zero.1 nonzero), rfl⟩
  | mod =>
    rw [Integer.compute?, Integer.remainder] at computed
    split at computed
    · cases computed
    · next nonzero =>
      cases computed
      exact ⟨_, if_neg (mt zero.1 nonzero), rfl⟩
  | bitAnd =>
    cases computed
    exact ⟨_, rfl, Integer.eq_ofInt_of_bits (fun _ _ => BitVec.getLsbD_and) (Int.testBit_land _ _)⟩
  | bitOr =>
    cases computed
    exact ⟨_, rfl, Integer.eq_ofInt_of_bits (fun _ _ => BitVec.getLsbD_or) (Int.testBit_lor _ _)⟩
  | bitXor =>
    cases computed
    exact ⟨_, rfl, Integer.eq_ofInt_of_bits (fun _ _ => BitVec.getLsbD_xor) (Int.testBit_lxor _ _)⟩
  | shiftLeft =>
    rw [Integer.compute?] at computed
    split at computed
    · cases computed
    · next count =>
      refine ⟨_, if_neg (mt negative.1 count), ?_⟩
      split at computed
      · cases computed
        rw [Nat.pow_eq, Nat.cast_pow, Nat.cast_ofNat]
      · next wide =>
        cases computed
        exact (Integer.ofInt_mul_two_pow _ (by omega)).symm
  | shiftRight =>
    rw [Integer.compute?] at computed
    split at computed
    · cases computed
    · next count =>
      cases computed
      exact ⟨_, if_neg (mt negative.1 count), by rw [Integer.shiftRight_min]⟩
  | or | and | equal | notEqual | less | lessEqual | greater | greaterEqual => cases computed

/-- A value is no integer, or it is the word of what an operator makes of two integers. -/
def Computes (op : BinaryOp) (l r v : Value) : Prop :=
  ∀ c, v = .int c → ∃ a b z, l = .int a ∧ r = .int b ∧
    op.unbounded? a.toInt b.toInt = some z ∧ c = .ofInt z

/-- A result on floats is no integer. -/
theorem computes_onFloats (op : BinaryOp) (l r : Value) (h : Heap) (a b : Float) :
    Ensures (match op.floats? a b with
      | some result => do return Value.float (← HeapM.ofCause result)
      | none => HeapM.invalidOperands op.text l r : HeapM Value) h fun v _ => op.Computes l r v := by
  split
  · exact .after fun _ _ => .pure (by rintro _ ⟨⟩)
  · exact .throw _

theorem computes_compute (op : BinaryOp) (l r : Value) (h : Heap) :
    Ensures (op.compute l r) h fun v _ => op.Computes l r v := by
  unfold compute
  dsimp only
  split
  · next a b =>
    split
    · next result computed =>
      cases result with
      | ok c =>
        refine .pure fun c' same => ?_
        cases same
        obtain ⟨z, isExact, word⟩ := unbounded?_of_compute? computed
        exact ⟨a, b, z, rfl, rfl, isExact, word⟩
      | error cause => exact .throw _
    · exact .throw _
  · exact computes_onFloats op _ _ h _ _
  · exact computes_onFloats op _ _ h _ _
  · exact computes_onFloats op _ _ h _ _
  · split
    · exact .pure (by rintro _ ⟨⟩)
    · exact .throw _
  · split
    · exact .after fun _ _ => .after fun _ _ => .after fun _ _ => .pure (by rintro _ ⟨⟩)
    · exact .throw _
  · exact .throw _

theorem computes_apply (limit : Nat) (op : BinaryOp) (l r : Value) (h : Heap) :
    Ensures (op.apply limit l r) h fun v _ => op.Computes l r v := by
  unfold apply
  split
  · exact .after fun _ _ => .pure nofun
  · exact .after fun _ _ => .pure nofun
  all_goals first | exact computes_compute _ l r h | skip
  all_goals
    split
    · exact .pure nofun
    · exact .throw _

end BinaryOp

theorem UnaryOp.computes_apply (op : UnaryOp) (v : Value) (h : Heap) :
    Ensures (op.apply v) h fun u _ =>
      ∀ c, u = .int c → ∃ a z, v = .int a ∧ op.unbounded? a.toInt = some z ∧ c = .ofInt z := by
  unfold apply
  split
  · next a =>
    refine .pure fun c same => ⟨a, _, rfl, rfl, ?_⟩
    cases same
    exact (Int64.ofInt_toInt a).symm
  · exact .pure nofun
  · next a =>
    refine .pure fun c same => ⟨a, _, rfl, rfl, ?_⟩
    cases same
    rfl
  · exact .pure nofun
  · exact .after fun _ _ => .pure nofun
  · next a =>
    refine .pure fun c same => ⟨a, _, rfl, rfl, ?_⟩
    cases same
    exact Integer.complement_eq a
  · exact .throw _

/-! ## Powers -/

namespace Math

/-- The power by squaring is a power; the fuel bounds the binary digits of the exponent. -/
theorem powerWord_ofInt (fuel : Nat) : ∀ (x y : Int) (n : Nat), n < 2 ^ fuel →
    powerWord fuel (.ofInt x) (.ofInt y) n = .ofInt (y * x ^ n) := by
  induction fuel with
  | zero =>
    intro x y n few
    have none : n = 0 := by omega
    rw [none, powerWord, pow_zero, mul_one]
  | succ fuel ih =>
    intro x y n few
    have half : n / 2 < 2 ^ fuel := by
      rw [pow_succ] at few
      omega
    have squares : (x * x) ^ (n / 2) = x ^ (2 * (n / 2)) := by rw [← pow_two, ← pow_mul]
    rw [powerWord]
    split
    · next none => rw [none, pow_zero, mul_one]
    · rw [← Int64.ofInt_mul, ← Int64.ofInt_mul]
      split
      · next odd =>
        have digits : n = 2 * (n / 2) + 1 := by omega
        rw [ih _ _ _ half, squares]
        nth_rewrite 2 [digits]
        rw [pow_succ', mul_assoc]
      · next even =>
        have digits : n = 2 * (n / 2) := by omega
        rw [ih _ _ _ half, squares, ← digits]

theorem power_eq (x : Int64) {n : Nat} (few : n < 2 ^ 64) : power x n = .ofInt (x.toInt ^ n) := by
  have powers := powerWord_ofInt exponentBits x.toInt 1 n few
  rw [Int64.ofInt_toInt, one_mul] at powers
  exact powers

end Math

/-! ## Floats -/

namespace Binary64

/-- The number that a float stands for, if it is finite. -/
def number? : Binary64 → Option ℚ
  | .finite negative mantissa exponent =>
    some ((if negative then -(mantissa : ℚ) else mantissa) * 2 ^ exponent)
  | _ => none

theorem floor_eq (negative : Bool) (mantissa : Nat) (exponent : Int) :
    (number? (.finite negative mantissa exponent)).map Int.floor =
      some (floor negative mantissa exponent) := by
  have signed : (if negative then -(mantissa : ℚ) else mantissa) =
      ((if negative then -(mantissa : Int) else mantissa : Int) : ℚ) := by
    split <;> push_cast <;> rfl
  rw [number?, Option.map_some, signed, floor]
  generalize (if negative then -(mantissa : Int) else mantissa) = m
  cases exponent with
  | ofNat n =>
    have whole : (m : ℚ) * 2 ^ (Int.ofNat n) = ((m * (Nat.pow 2 n : Nat) : Int) : ℚ) := by
      rw [Int.ofNat_eq_natCast, zpow_natCast, Nat.pow_eq]
      push_cast
      rfl
    rw [whole, Int.floor_intCast]
    rfl
  | negSucc n =>
    have quotient : (m : ℚ) * 2 ^ (Int.negSucc n) = m / (Nat.pow 2 (n + 1) : Nat) := by
      rw [zpow_negSucc, ← div_eq_mul_inv, Nat.pow_eq]
      push_cast
      rfl
    rw [quotient, Rat.floor_intCast_div_natCast]
    rfl

end Binary64

/-! ## Functions -/

/-- The integer that a value is, if it is one. -/
def Value.toInt? : Value → Option Int
  | .int n => some n.toInt
  | _ => none

/-- The integer that a function makes of its arguments without bounds, where it makes one. -/
def Builtin.unbounded? (h : Heap) : Builtin → List Value → Option Int
  | .len, [.str s] => some s.length
  | .len, [.list l] => some (h.items l).size
  | .len, [.dict d] => some (h.dictionary d).size
  | .mathAdd, args => (args.mapM Value.toInt?).map List.sum
  | .mathFloor, [.int n] => some n.toInt
  | .mathFloor, [.float x] => (Binary64.ofFloat x).number?.map Int.floor
  | .mathPow, [.int x, .int y] => if 0 ≤ y then some (x.toInt ^ y.toInt.toNat) else none
  | _, _ => none

theorem Ensures.onHeap {α : Type} {act : HeapM α} {s : State} {P : α → Prop}
    (inner : Ensures act s.heap fun x _ => P x) : Ensures (Eval.onHeap act) s fun x _ => P x := by
  intro x t run
  rw [Eval.onHeap_apply] at run
  have isOk : (act s.heap).1 = .ok x := congrArg Prod.fst run
  exact inner x _ (Prod.ext isOk rfl)

/-- A value is no integer, or it is the word of what a function makes of its arguments. -/
def Builtin.Makes (h : Heap) (f : Builtin) (args : List Value) (v : Value) : Prop :=
  ∀ c, v = .int c → ∃ z, f.unbounded? h args = some z ∧ c = .ofInt z

/-- A value that is no integer. -/
theorem Builtin.Makes.of_ne {h : Heap} {f : Builtin} {args : List Value} {v : Value}
    (other : ∀ c, v ≠ .int c) : f.Makes h args v :=
  fun c same => (other c same).elim

theorem Builtin.Makes.word {h : Heap} {f : Builtin} {args : List Value} {c : Int64} {z : Int}
    (isExact : f.unbounded? h args = some z) (word : c = .ofInt z) : f.Makes h args (.int c) := by
  intro c' same
  cases same
  exact ⟨z, isExact, word⟩

namespace Math

theorem exact_total (h : Heap) (values : List Value) : ∀ sum : Int,
    Ensures (total sum values) h fun z _ =>
      (values.mapM Value.toInt?).map (fun ints => sum + ints.sum) = some z := by
  induction values with
  | nil => exact fun sum => .pure (by simp)
  | cons v rest ih =>
    intro sum
    cases v with
    | int n =>
      intro z h' run
      have found := ih (sum + n.toInt) z h' run
      rw [List.mapM_cons]
      cases ints : rest.mapM Value.toInt? with
      | none =>
        rw [ints] at found
        cases found
      | some ints' =>
        rw [ints] at found
        simpa [Value.toInt?, add_assoc] using found
    | nil | bool | float | str | list | dict | struct | function | method | builtin | module | structDef =>
      exact .throw _

variable (h h' : Heap)

theorem makes_add (values : List Value) :
    Ensures (add values) h fun v _ => Builtin.mathAdd.Makes h' values v := by
  refine (exact_total h values 0).bind fun z _ total => .pure (.word ?_ rfl)
  simpa [Builtin.unbounded?] using total

theorem makes_floor (v : Value) : Ensures (floor v) h fun u _ => Builtin.mathFloor.Makes h' [v] u := by
  cases v with
  | int n => exact .pure (.word rfl (Int64.ofInt_toInt n).symm)
  | float x =>
    change Ensures (checked .mathFloor (floorWord x) >>= fun c => Pure.pure (Value.int c)) h _
    rw [floorWord]
    split
    · exact .throw _
    · exact .throw _
    · next negative mantissa exponent parts =>
      refine .pure (.word ?_ rfl)
      rw [Builtin.unbounded?, parts, Binary64.floor_eq]
  | nil | bool | str | list | dict | struct | function | method | builtin | module | structDef =>
    exact .throw _

theorem makes_pow (v u : Value) : Ensures (pow v u) h fun w _ => Builtin.mathPow.Makes h' [v, u] w := by
  have onFloats : Ensures (do
      let x ← number v
      let y ← number u
      return Value.float (← checked .mathPow (powerFloat x y)) : HeapM Value) h fun w _ =>
        Builtin.mathPow.Makes h' [v, u] w :=
    .after fun _ _ => .after fun _ _ => .after fun _ _ => .pure (.of_ne nofun)
  unfold pow
  dsimp only
  split
  · next x y =>
    split
    · next count =>
      have few : y.toInt.toNat < 2 ^ 64 := by
        have := y.toInt_lt
        omega
      exact .pure (.word (if_pos count) (power_eq x few))
    · exact onFloats
  · exact onFloats

end Math

namespace Builtin

open Eval

theorem makes_length (b : BoxId) (s : State) :
    Ensures (length b) s fun v _ => Builtin.len.Makes s.heap [s.heap.value b] v := by
  rw [Ensures, length, bind_ok (run_get s)]
  generalize s.heap.value b = v
  change Ensures _ s _
  split
  · exact .pure (.word rfl (Int64.ofInt_eq_ofNat).symm)
  · exact .pure (.word rfl (Int64.ofInt_eq_ofNat).symm)
  · exact .pure (.word rfl (Int64.ofInt_eq_ofNat).symm)
  · exact .throw _

theorem run_mapM_read (args : List BoxId) (s : State) :
    args.mapM Eval.read s = (.ok (args.map s.heap.value), s) := by
  induction args with
  | nil => rfl
  | cons b args ih =>
    have first : Eval.read b s = (.ok (s.heap.value b), s) := rfl
    rw [List.mapM_cons, bind_ok first, bind_ok ih]
    rfl

/-- An integer that a function answers is the word of the exact one. -/
theorem makes_perform (cfg : Config) (f : Builtin) (args : List BoxId) (s : State) :
    Ensures (f.perform cfg args) s fun v _ => f.Makes s.heap (args.map s.heap.value) v := by
  rw [perform.eq_def]
  split
  · exact .after fun _ _ => .after fun _ _ => .pure (.of_ne nofun)
  · exact makes_length _ s
  · next b =>
    change Ensures (match s.heap.value b with
      | .int code => throw (.exit code)
      | _ => do raise (.typeMismatch "i64" (← typeName b))) s _
    split
    · exact .throw _
    · exact .after fun _ _ => .throw _
  · exact .after fun _ _ => .after fun _ _ => .after fun _ _ => .pure (.of_ne nofun)
  · refine .after fun _ _ => .after fun _ _ => .onHeap ?_
    exact .after fun _ _ => .after fun _ _ => .pure (.of_ne nofun)
  · refine .after fun _ _ => .onHeap (.after fun deleted _ => ?_)
    split
    · exact .pure (.of_ne nofun)
    · exact .after fun _ _ => .after fun _ _ => .throw _
  · exact .after fun _ _ => .pure (.of_ne nofun)
  · exact .after fun _ _ => .pure (.of_ne nofun)
  · refine (Ensures.of_run (P := fun values t => values = args.map s.heap.value ∧ t = s)
      (run_mapM_read args s) ⟨rfl, rfl⟩).bind ?_
    rintro _ _ ⟨rfl, rfl⟩
    exact .onHeap (Math.makes_add _ _ _)
  · refine .after fun _ _ => .onHeap ?_
    exact .after fun _ _ => .after fun _ _ => .pure (.of_ne nofun)
  · exact Ensures.onHeap (Math.makes_floor _ _ _)
  · exact Ensures.onHeap (Math.makes_pow _ _ _ _)
  · exact .throw _

end Builtin

/-! ## Loops -/

namespace Eval

/-- When the body of a turn begins, the counter is in a box of its own and is the number of the turn. -/
theorem forTurns_cons {ctx : Context} {s : State} (wf : s.WellFormed) (here : s.HasModule ctx.module)
    (ev : Evaluators) {counter element : String} (distinct : counter ≠ element) (body : Block) (b : BoxId)
    (rest : List BoxId) (turn : Nat) :
    ∃ t c n, forTurns ev ctx counter element body (b :: rest) turn s = (do
        let flow ← runBlock (ev.stmt ctx) body
        match afterTurn flow with
        | some flow => return flow
        | none => forTurns ev ctx counter element body rest (turn + 1)) t ∧
      getObj? ctx.module counter t = (.ok (some c), t) ∧ t.heap.value c = .int n ∧
        n.toInt = Integer.wrap turn := by
  obtain ⟨m, stands, there⟩ := wf.stands here
  -- the four steps that begin a turn: two boxes are made, and each is given its name
  let counted := (Operation.alloc (.int (.ofNat turn))).apply s
  let named := counted.modifyScope m (·.declareObj counter ⟨s.heap.boxes.size⟩)
  let copied := (Operation.alloc (named.heap.value b)).apply named
  let begun := copied.modifyScope m (·.declareObj element ⟨named.heap.boxes.size⟩)
  have toCounted : s.Extends counted := Operation.extends _ s
  have toNamed : s.Extends named := toCounted.trans (counted.extends_modifyScope m _)
  have toCopied : s.Extends copied := toNamed.trans (Operation.extends _ named)
  have toBegun : s.Extends begun := toCopied.trans (copied.extends_modifyScope m _)
  have scopeNamed : named.scopeOf m = (s.scopeOf m).declareObj counter ⟨s.heap.boxes.size⟩ :=
    congrArg (·.scope) (Registry.module_modifyScope_self _ (there.mono toCounted))
  have scopeBegun : begun.scopeOf m = (named.scopeOf m).declareObj element ⟨named.heap.boxes.size⟩ :=
    congrArg (·.scope) (Registry.module_modifyScope_self _ (there.mono toCopied))
  refine ⟨begun, ⟨s.heap.boxes.size⟩, .ofNat turn, ?_, ?_, ?_, Integer.toInt_ofNat turn⟩
  · have first : alloc (.int (.ofNat turn)) s = (.ok ⟨s.heap.boxes.size⟩, counted) := rfl
    have second : declareObj ctx.module counter ⟨s.heap.boxes.size⟩ counted = (.ok (), named) :=
      run_onScope (stands.mono toCounted here)
    have third : copy b named = (.ok ⟨named.heap.boxes.size⟩, copied) := rfl
    have fourth : declareObj ctx.module element ⟨named.heap.boxes.size⟩ copied = (.ok (), begun) :=
      run_onScope (stands.mono toCopied here)
    rw [forTurns]
    exact (bind_ok first).trans ((bind_ok second).trans ((bind_ok third).trans (bind_ok fourth)))
  · rw [getObj?, inScope, bind_ok (Discipline.Agree.run_resolve (stands.mono toBegun here))]
    change (Except.ok ((begun.scopeOf m).getObj? counter), begun) = _
    rw [scopeBegun, Scope.getObj?_declareObj, if_neg distinct, scopeNamed, Scope.getObj?_declareObj,
      if_pos rfl]
  · have other : s.heap.boxes.size ≠ (s.heap.boxes.push (.int (.ofNat turn))).size := by
      rw [Array.size_push]
      omega
    change ((s.heap.boxes.push (.int (.ofNat turn))).push _).getD s.heap.boxes.size .nil = _
    rw [Array.getD_eq_getD_getElem?, Array.getElem?_push, if_neg other, Array.getElem?_push_size]
    rfl

end Eval

/-! ## Literals -/

namespace Expr

/-- A number without a point, and not of too many digits, is an integer that is a word, and is that integer,
or it is refused. -/
theorem run_number (t : Token) (text : String) (whole : '.' ∉ text.toList)
    (short : text.toList.length ≤ Text.digitLimit) (ts : Tokens) :
    (Decimal.digitsValue text.toList < 2 ^ 63 ∧ ∃ n, (number t text).run ts =
        .ok (.literal t.position (.int n), ts) ∧ n.toInt = Decimal.digitsValue text.toList) ∨
      (2 ^ 63 ≤ Decimal.digitsValue text.toList ∧ (number t text).run ts =
        .error ⟨.grammatical (.literalOverflow text), t.position⟩) := by
  have noPoint : ¬ text.toList.contains '.' = true := mt List.contains_iff_mem.1 whole
  simp only [number, if_neg noPoint, if_neg (Nat.not_lt.2 short)]
  split
  · next fits =>
    have small : Decimal.digitsValue text.toList < 2 ^ 63 := Nat.lt_of_le_of_lt fits (by decide)
    refine .inl ⟨small, _, rfl, ?_⟩
    rw [Integer.toInt_ofNat]
    exact Integer.wrap_of_inRange ⟨by omega, by omega⟩
  · next great =>
    refine .inr ⟨?_, rfl⟩
    rw [greatestLiteral] at great
    omega

theorem run_number_of_long (t : Token) (text : String) (whole : '.' ∉ text.toList)
    (long : Text.digitLimit < text.toList.length) (ts : Tokens) :
    (number t text).run ts = .error ⟨.grammatical (.literalTooLong text), t.position⟩ := by
  have noPoint : ¬ text.toList.contains '.' = true := mt List.contains_iff_mem.1 whole
  simp only [number, if_neg noPoint, if_pos long]
  rfl

end Expr

/-- In every state every integer in a box is a word, and so is every exit code.  Of these two the type of
integers takes care; what remains to be told is that each of them is the integer it should be.

A literal is read as the integer it writes, and is refused when that is too great; one of too many digits is
not read at all.  An integer that comes of an operator comes of integers, and is the exact result wrapped
around; an integer that comes of a function is the exact one wrapped around; the counter of a loop is the
number of its turn, wrapped around; and a program that asks to exit with an integer exits with it. -/
theorem integers_stay_in_range (cfg : Config) :
    (∀ (s : State) b n, s.heap.value b = .int n → Integer.InRange n.toInt) ∧
    (∀ M s code t, Run.program cfg M s = (.ok code, t) → Integer.InRange code.toInt) ∧
    (∀ s b n, s.heap.value b = .int n → Builtin.exit.perform cfg [b] s = (.error (.exit n), s)) ∧
    (∀ (t : Token) (text : String), '.' ∉ text.toList → text.toList.length ≤ Text.digitLimit → ∀ ts,
      (Decimal.digitsValue text.toList < 2 ^ 63 ∧ ∃ n, (Expr.number t text).run ts =
        .ok (.literal t.position (.int n), ts) ∧ n.toInt = Decimal.digitsValue text.toList) ∨
      (2 ^ 63 ≤ Decimal.digitsValue text.toList ∧ (Expr.number t text).run ts =
        .error ⟨.grammatical (.literalOverflow text), t.position⟩)) ∧
    (∀ (t : Token) (text : String), '.' ∉ text.toList → Text.digitLimit < text.toList.length → ∀ ts,
      (Expr.number t text).run ts = .error ⟨.grammatical (.literalTooLong text), t.position⟩) ∧
    (∀ text l r h c h', BinaryOp.applyText cfg.dataLimit text l r h = (.ok (.int c), h') →
      ∃ op a b z, BinaryOp.ofText? text = some op ∧ l = .int a ∧ r = .int b ∧
        op.unbounded? a.toInt b.toInt = some z ∧ c.toInt = Integer.wrap z) ∧
    (∀ text v h c h', UnaryOp.applyText text v h = (.ok (.int c), h') →
      ∃ op a z, UnaryOp.ofText? text = some op ∧ v = .int a ∧
        op.unbounded? a.toInt = some z ∧ c.toInt = Integer.wrap z) ∧
    (∀ (f : Builtin) args s c t, f.perform cfg args s = (.ok (.int c), t) →
      ∃ z, f.unbounded? s.heap (args.map s.heap.value) = some z ∧ c.toInt = Integer.wrap z) ∧
    (∀ ev ctx s, Reachable cfg s → s.HasModule ctx.module → ∀ counter element, counter ≠ element →
      ∀ body b rest turn, ∃ t c n, Eval.forTurns ev ctx counter element body (b :: rest) turn s = (do
          let flow ← Eval.runBlock (ev.stmt ctx) body
          match Eval.afterTurn flow with
          | some flow => return flow
          | none => Eval.forTurns ev ctx counter element body rest (turn + 1)) t ∧
        Eval.getObj? ctx.module counter t = (.ok (some c), t) ∧ t.heap.value c = .int n ∧
          n.toInt = Integer.wrap turn) := by
  refine ⟨?_, ?_, ?_, ?_, ?_, ?_, ?_, ?_, ?_⟩
  · exact fun _ _ n _ => Integer.inRange_toInt n
  · exact fun _ _ code _ _ => Integer.inRange_toInt code
  · intro s b n holds
    have reads : Eval.read b s = (.ok (.int n), s) := by rw [← holds]; rfl
    exact Eval.bind_ok reads
  · exact fun t text whole short ts => Expr.run_number t text whole short ts
  · exact fun t text whole long ts => Expr.run_number_of_long t text whole long ts
  · intro text l r h c h' run
    rw [BinaryOp.applyText] at run
    cases known : BinaryOp.ofText? text with
    | none =>
      rw [known] at run
      cases run
    | some op =>
      rw [known] at run
      obtain ⟨a, b, z, left, right, isExact, rfl⟩ := BinaryOp.computes_apply _ op l r h _ _ run c rfl
      exact ⟨op, a, b, z, rfl, left, right, isExact, Integer.toInt_ofInt z⟩
  · intro text v h c h' run
    rw [UnaryOp.applyText] at run
    cases known : UnaryOp.ofText? text with
    | none =>
      rw [known] at run
      cases run
    | some op =>
      rw [known] at run
      obtain ⟨a, z, operand, isExact, rfl⟩ := UnaryOp.computes_apply op v h _ _ run c rfl
      exact ⟨op, a, z, rfl, operand, isExact, Integer.toInt_ofInt z⟩
  · intro f args s c t run
    obtain ⟨z, isExact, rfl⟩ := Builtin.makes_perform cfg f args s _ t run c rfl
    exact ⟨z, isExact, Integer.toInt_ofInt z⟩
  · intro ev ctx s reachable here counter element distinct body b rest turn
    exact Eval.forTurns_cons reachable.wellFormed here ev distinct body b rest turn

end Shiba

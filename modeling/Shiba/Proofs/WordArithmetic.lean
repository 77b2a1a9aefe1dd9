import Mathlib.Data.BitVec
import Shiba.Operator.Apply
import Shiba.Proofs.Keys.Access

/-!
# Integer operators are operations on words

The operators compute with integers and keep the word that is left.  A machine with registers of 64 bits
in two's complement would have computed with the words themselves, and the results are the same.

* `BinaryOp.onWords?` is the table of that machine: the operation of each operator on words, where there
  is one.
* `BinaryOp.apply_of_onWords?` and `BinaryOp.apply_of_faulty` compare it with what the operators do.
* `integer_operators_on_words` says all of it at once, with what a quotient and a remainder are.
-/

namespace Shiba

namespace BinaryOp

/-- The operators that compute with integers. -/
def isInteger : BinaryOp → Bool
  | .add | .sub | .mul | .div | .mod | .bitAnd | .bitOr | .bitXor | .shiftLeft | .shiftRight => true
  | _ => false

/-- An operator on words of 64 bits in two's complement.  There is no quotient and no remainder by zero,
and no shift by a negative count. -/
def onWords? (op : BinaryOp) (x y : BitVec 64) : Option (BitVec 64) :=
  match op with
  | .add => some (x + y)
  | .sub => some (x - y)
  | .mul => some (x * y)
  | .div => if y = 0 then none else some (x.sdiv y)
  | .mod => if y = 0 then none else some (x.srem y)
  | .bitAnd => some (x &&& y)
  | .bitOr => some (x ||| y)
  | .bitXor => some (x ^^^ y)
  | .shiftLeft => if y.toInt < 0 then none else some (x <<< y.toNat)
  | .shiftRight => if y.toInt < 0 then none else some (x.sshiftRight y.toNat)
  | _ => none

/-- An operator has no result on words: its divisor is zero, or its shift count is negative. -/
def Faulty (op : BinaryOp) (b : Int64) : Prop :=
  ((op = .div ∨ op = .mod) ∧ b = 0) ∨ ((op = .shiftLeft ∨ op = .shiftRight) ∧ b < 0)

theorem ofText?_text (op : BinaryOp) : ofText? op.text = some op := by cases op <;> rfl

end BinaryOp

/-! ## Words -/

namespace Integer

variable (a b : Int64)

theorem toBitVec_eq_zero_iff : b.toBitVec = 0 ↔ b = 0 := by
  rw [Int64.eq_iff_toBitVec_eq]
  rfl

theorem toInt_toBitVec_neg_iff : b.toBitVec.toInt < 0 ↔ b < 0 := by
  rw [Int64.toInt_toBitVec, Int64.lt_iff_toInt_lt]
  rfl

theorem ofInt_tdiv : Int64.ofInt (a.toInt.tdiv b.toInt) = .ofBitVec (a.toBitVec.sdiv b.toBitVec) := by
  rw [Int64.ofInt_tdiv a.minValue_le_toInt a.toInt_le b.minValue_le_toInt b.toInt_le,
    Int64.ofInt_toInt, Int64.ofInt_toInt, ← Int64.toBitVec_div, Int64.ofBitVec_toBitVec]

theorem ofInt_tmod : Int64.ofInt (a.toInt.tmod b.toInt) = .ofBitVec (a.toBitVec.srem b.toBitVec) := by
  rw [Int64.ofInt_tmod a.minValue_le_toInt a.toInt_le b.minValue_le_toInt b.toInt_le,
    Int64.ofInt_toInt, Int64.ofInt_toInt, ← Int64.toBitVec_mod, Int64.ofBitVec_toBitVec]

/-- A count that is not negative is the number its word writes. -/
theorem toNat_toInt_of_nonneg {b : Int64} (count : ¬ b < 0) : b.toInt.toNat = b.toBitVec.toNat := by
  have nonneg : 0 ≤ b.toInt := by
    rw [Int64.lt_iff_toInt_lt, Int.not_lt] at count
    exact count
  have noSign : b.toBitVec.msb = false := by
    rw [BitVec.msb_eq_toInt, Int64.toInt_toBitVec]
    exact decide_eq_false (Int.not_lt.2 nonneg)
  rw [← Int64.toInt_toBitVec, BitVec.toInt_eq_toNat_of_msb noSign, Int.toNat_natCast]

/-- A product by a power of two is a shift. -/
theorem ofInt_mul_pow (n : Nat) :
    Int64.ofInt (a.toInt * (Nat.pow 2 n : Nat)) = .ofBitVec (a.toBitVec <<< n) := by
  apply Int64.toBitVec_inj.1
  rw [Int64.toBitVec_ofInt, Int64.toBitVec_ofBitVec, BitVec.ofInt_mul, BitVec.ofInt_int64ToInt,
    BitVec.ofInt_natCast, BitVec.shiftLeft_eq_mul_twoPow]
  congr 1
  apply BitVec.eq_of_toNat_eq
  rw [BitVec.toNat_ofNat, BitVec.toNat_twoPow]
  rfl

/-- A shift to the right by all bits but one, or by more, leaves nothing but the sign. -/
theorem shiftRight_eq_sign {n : Nat} (most : 63 ≤ n) :
    a.toInt >>> n = if a.toInt < 0 then -1 else 0 := by
  have low : -2 ^ 63 ≤ a.toInt := a.le_toInt
  have high : a.toInt < 2 ^ 63 := a.toInt_lt
  have wide : (2 : Int) ^ 63 ≤ 2 ^ n := mod_cast Nat.pow_le_pow_right (n := 2) (by decide) most
  rw [Int.shiftRight_eq_div_pow, Nat.cast_pow, Nat.cast_ofNat]
  split
  · next negative =>
    apply (Int.ediv_emod_unique (r := a.toInt + 2 ^ n) (by omega)).2 ⟨by omega, by omega, by omega⟩ |>.1
  · next nonneg => exact Int.ediv_eq_zero_of_lt (by omega) (by omega)

/-- A shift to the right by a count that is cut to the width is the shift by the whole count. -/
theorem shiftRight_min (n : Nat) : a.toInt >>> min n 63 = a.toInt >>> n := by
  rcases Nat.le_total n 63 with few | many
  · rw [Nat.min_eq_left few]
  · rw [Nat.min_eq_right many, shiftRight_eq_sign a (Nat.le_refl 63), shiftRight_eq_sign a many]

theorem ofInt_shiftRight (n : Nat) :
    Int64.ofInt (a.toInt >>> min n 63) = .ofBitVec (a.toBitVec.sshiftRight n) := by
  apply Int64.toBitVec_inj.1
  rw [shiftRight_min, Int64.toBitVec_ofInt, Int64.toBitVec_ofBitVec, ← Int64.toInt_toBitVec,
    ← BitVec.toInt_sshiftRight, BitVec.ofInt_toInt]

end Integer

/-! ## Operators -/

namespace BinaryOp

variable {op : BinaryOp} {a b : Int64}

/-- Where words have a result, the integers have it. -/
theorem compute?_of_onWords? {w : BitVec 64} (defined : op.onWords? a.toBitVec b.toBitVec = some w) :
    Integer.compute? op a b = some (.ok (.ofBitVec w)) := by
  cases op with
  | add =>
    cases defined
    rw [Integer.compute?, Int64.ofInt_add, Int64.ofInt_toInt, Int64.ofInt_toInt, ← Int64.toBitVec_add,
      Int64.ofBitVec_toBitVec]
  | sub =>
    cases defined
    rw [Integer.compute?, Int64.ofInt_sub, Int64.ofInt_toInt, Int64.ofInt_toInt, ← Int64.toBitVec_sub,
      Int64.ofBitVec_toBitVec]
  | mul =>
    cases defined
    rw [Integer.compute?, Int64.ofInt_mul, Int64.ofInt_toInt, Int64.ofInt_toInt, ← Int64.toBitVec_mul,
      Int64.ofBitVec_toBitVec]
  | div =>
    obtain ⟨nonzero, result⟩ := Option.ite_none_left_eq_some.1 defined
    rw [Integer.toBitVec_eq_zero_iff] at nonzero
    cases result
    rw [Integer.compute?, if_neg nonzero, Integer.quotient, if_neg nonzero, Integer.ofInt_tdiv]
  | mod =>
    obtain ⟨nonzero, result⟩ := Option.ite_none_left_eq_some.1 defined
    rw [Integer.toBitVec_eq_zero_iff] at nonzero
    cases result
    rw [Integer.compute?, if_neg nonzero, Integer.remainder, if_neg nonzero, Integer.ofInt_tmod]
  | bitAnd | bitOr | bitXor =>
    cases defined
    rfl
  | shiftLeft =>
    obtain ⟨count, result⟩ := Option.ite_none_left_eq_some.1 defined
    rw [Integer.toInt_toBitVec_neg_iff] at count
    cases result
    rw [Integer.compute?, if_neg count, Integer.ofInt_mul_pow, Integer.toNat_toInt_of_nonneg count]
    split
    · rfl
    · next wide =>
      -- the whole word has been shifted out
      have many : 64 ≤ b.toBitVec.toNat := by
        rw [← Integer.toNat_toInt_of_nonneg count]
        omega
      rw [BitVec.shiftLeft_eq_zero many]
      rfl
  | shiftRight =>
    obtain ⟨count, result⟩ := Option.ite_none_left_eq_some.1 defined
    rw [Integer.toInt_toBitVec_neg_iff] at count
    cases result
    rw [Integer.compute?, if_neg count, Integer.ofInt_shiftRight, Integer.toNat_toInt_of_nonneg count]
  | or | and | equal | notEqual | less | lessEqual | greater | greaterEqual => cases defined

/-- Words have no result exactly for a faulty operand. -/
theorem onWords?_eq_none_iff (integer : op.isInteger = true) :
    op.onWords? a.toBitVec b.toBitVec = none ↔ op.Faulty b := by
  cases op with
  | add | sub | mul | bitAnd | bitOr | bitXor => simp [onWords?, Faulty]
  | div | mod => simpa [onWords?, Faulty] using Integer.toBitVec_eq_zero_iff b
  | shiftLeft | shiftRight => simpa [onWords?, Faulty] using Integer.toInt_toBitVec_neg_iff b
  | or | and | equal | notEqual | less | lessEqual | greater | greaterEqual => cases integer

/-- A faulty operand is an error. -/
theorem compute?_of_faulty (faulty : op.Faulty b) :
    ∃ cause, Integer.compute? op a b = some (.error cause) := by
  rcases faulty with ⟨rfl | rfl, zero⟩ | ⟨rfl | rfl, negative⟩
  · exact ⟨_, by rw [Integer.compute?, if_pos zero]⟩
  · exact ⟨_, by rw [Integer.compute?, if_pos zero]⟩
  · exact ⟨_, by rw [Integer.compute?, if_pos negative]⟩
  · exact ⟨_, by rw [Integer.compute?, if_pos negative]⟩

/-- An operator that computes with integers does so on two of them. -/
theorem apply_of_compute? {result : Except Cause Int64} (limit : Nat) (h : Heap)
    (computed : Integer.compute? op a b = some result) :
    op.apply limit (.int a) (.int b) h =
      match result with
      | .ok c => (.ok (.int c), h)
      | .error cause => (.error (.ofCause cause), h) := by
  cases op with
  | or | and | equal | notEqual | less | lessEqual | greater | greaterEqual => cases computed
  | _ =>
    simp only [apply, compute, computed]
    cases result with
    | ok c => rfl
    | error cause => rfl

theorem apply_of_onWords? {w : BitVec 64} (limit : Nat) (h : Heap)
    (defined : op.onWords? a.toBitVec b.toBitVec = some w) :
    op.apply limit (.int a) (.int b) h = (.ok (.int (.ofBitVec w)), h) :=
  apply_of_compute? limit h (compute?_of_onWords? defined)

theorem apply_of_faulty (limit : Nat) (h : Heap) (faulty : op.Faulty b) :
    ∃ cause, op.apply limit (.int a) (.int b) h = (.error (.ofCause cause), h) := by
  obtain ⟨cause, computed⟩ := compute?_of_faulty (a := a) faulty
  exact ⟨cause, apply_of_compute? limit h computed⟩

end BinaryOp

/-! ## Quotients and remainders -/

namespace Integer

variable {a b : Int64}

/-- The quotient is the one toward zero, but for the one that no word holds: it wraps around. -/
theorem toInt_sdiv : (a.toBitVec.sdiv b.toBitVec).toInt =
    if a = .minValue ∧ b = -1 then -2 ^ 63 else a.toInt.tdiv b.toInt := by
  rw [← Int64.toBitVec_div, Int64.toInt_toBitVec]
  split
  · next extreme =>
    obtain ⟨rfl, rfl⟩ := extreme
    decide
  · next usual =>
    rcases not_and_or.1 usual with left | right
    · exact Int64.toInt_div_of_ne_left a b left
    · exact Int64.toInt_div_of_ne_right a b right

/-- A quotient times the divisor and the remainder make up the dividend, however much of them was
lost. -/
theorem quotient_mul_add_remainder :
    a.toBitVec.sdiv b.toBitVec * b.toBitVec + a.toBitVec.srem b.toBitVec = a.toBitVec := by
  calc a.toBitVec.sdiv b.toBitVec * b.toBitVec + a.toBitVec.srem b.toBitVec
      = (Int64.ofInt (a.toInt.tdiv b.toInt) * b + Int64.ofInt (a.toInt.tmod b.toInt)).toBitVec := by
        rw [ofInt_tdiv, ofInt_tmod, Int64.toBitVec_add, Int64.toBitVec_mul, Int64.toBitVec_ofBitVec,
          Int64.toBitVec_ofBitVec]
    _ = (Int64.ofInt (a.toInt.tdiv b.toInt * b.toInt + a.toInt.tmod b.toInt)).toBitVec := by
        rw [Int64.ofInt_add, Int64.ofInt_mul, Int64.ofInt_toInt]
    _ = a.toBitVec := by rw [Int.tdiv_mul_add_tmod, Int64.ofInt_toInt]

end Integer

/-- On two integers an operator does what it does on their words, and it fails exactly for a divisor
that is zero and for a negative shift count.  The quotient is the one toward zero, except that the least
integer divided by minus one is itself, and the remainder has the sign of the dividend; the two make up
the dividend again.  Negation and complement are those of words, and never fail. -/
theorem integer_operators_on_words (limit : Nat) (h : Heap) (a b : Int64) :
    (∀ op : BinaryOp, ∀ w, op.onWords? a.toBitVec b.toBitVec = some w →
      BinaryOp.applyText limit op.text (.int a) (.int b) h = (.ok (.int (.ofBitVec w)), h)) ∧
    (∀ op : BinaryOp, op.isInteger = true →
      ((∃ stop, (BinaryOp.applyText limit op.text (.int a) (.int b) h).1 = .error stop) ↔
        ((op = .div ∨ op = .mod) ∧ b = 0) ∨ ((op = .shiftLeft ∨ op = .shiftRight) ∧ b < 0))) ∧
    (b ≠ 0 →
      (a.toBitVec.sdiv b.toBitVec).toInt =
        (if a = .minValue ∧ b = -1 then -2 ^ 63 else a.toInt.tdiv b.toInt) ∧
      (a.toBitVec.srem b.toBitVec).toInt = a.toInt.tmod b.toInt ∧
      (do
        let quotient ← BinaryOp.apply limit .div (.int a) (.int b)
        let product ← BinaryOp.apply limit .mul quotient (.int b)
        let remainder ← BinaryOp.apply limit .mod (.int a) (.int b)
        BinaryOp.apply limit .add product remainder : HeapM Value) h = (.ok (.int a), h)) ∧
    UnaryOp.applyText UnaryOp.minus.text (.int a) h = (.ok (.int (.ofBitVec (-a.toBitVec))), h) ∧
    UnaryOp.applyText UnaryOp.complement.text (.int a) h =
      (.ok (.int (.ofBitVec (~~~a.toBitVec))), h) := by
  have text : ∀ op : BinaryOp, BinaryOp.applyText limit op.text = op.apply limit := by
    intro op
    funext l r
    rw [BinaryOp.applyText, BinaryOp.ofText?_text]
  refine ⟨?_, ?_, ?_, ?_, ?_⟩
  · intro op w defined
    rw [text]
    exact BinaryOp.apply_of_onWords? limit h defined
  · intro op integer
    rw [text]
    change _ ↔ op.Faulty b
    constructor
    · rintro ⟨stop, failed⟩
      rw [← BinaryOp.onWords?_eq_none_iff (a := a) integer]
      cases defined : op.onWords? a.toBitVec b.toBitVec with
      | none => rfl
      | some w =>
        rw [BinaryOp.apply_of_onWords? limit h defined] at failed
        cases failed
    · intro faulty
      obtain ⟨cause, failed⟩ := BinaryOp.apply_of_faulty (a := a) limit h faulty
      exact ⟨.ofCause cause, by rw [failed]⟩
  · intro nonzero
    have nonzeroWord : ¬ b.toBitVec = 0 := mt (Integer.toBitVec_eq_zero_iff b).1 nonzero
    refine ⟨Integer.toInt_sdiv, ?_, ?_⟩
    · rw [BitVec.toInt_srem, Int64.toInt_toBitVec, Int64.toInt_toBitVec]
    · have quotient : BinaryOp.div.onWords? a.toBitVec b.toBitVec = some _ := if_neg nonzeroWord
      have remainder : BinaryOp.mod.onWords? a.toBitVec b.toBitVec = some _ := if_neg nonzeroWord
      have product (x y : Int64) : BinaryOp.mul.onWords? x.toBitVec y.toBitVec = some _ := rfl
      have sum (x y : Int64) : BinaryOp.add.onWords? x.toBitVec y.toBitVec = some _ := rfl
      rw [HeapM.run_bind (BinaryOp.apply_of_onWords? limit h quotient),
        HeapM.run_bind (BinaryOp.apply_of_onWords? limit h (product _ _)),
        HeapM.run_bind (BinaryOp.apply_of_onWords? limit h remainder),
        BinaryOp.apply_of_onWords? limit h (sum _ _)]
      simp only [Int64.toBitVec_ofBitVec, Integer.quotient_mul_add_remainder, Int64.ofBitVec_toBitVec]
  · have word : Integer.negate a = .ofBitVec (-a.toBitVec) := by
      rw [Integer.negate, Int64.ofInt_neg, Int64.ofInt_toInt, ← Int64.toBitVec_neg, Int64.ofBitVec_toBitVec]
    rw [← word]
    rfl
  · rfl

end Shiba

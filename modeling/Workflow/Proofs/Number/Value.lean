import Mathlib.Algebra.Field.Rat
import Mathlib.Tactic.NormNum
import Workflow.Document.Basic

/-!
# Exact values of numbers

The value of a finite floating-point number is a rational number, and changing the sign of a number
changes the sign of its value and nothing else.
-/

namespace Workflow

/-- A value with a sign in front of it. -/
def signed (isNegative : Bool) (v : ℚ) : ℚ := if isNegative then -v else v

namespace Binary64

/-- The value of a finite number without its sign. -/
def size (x : Binary64) : ℚ :=
  (x.significand * Nat.pow 2 x.exponent.toNat : Nat) / (Nat.pow 2 (-x.exponent).toNat : Nat)

/-- The value of a finite number. -/
def value (x : Binary64) : ℚ := if x.isNegative then -x.size else x.size

theorem toNat_ofParts (negative : Bool) {magnitude : Nat} (h : magnitude < signBit) :
    (ofParts negative magnitude).bits.toNat =
      if negative then signBit + magnitude else magnitude := by
  have hbits : (if negative then signBit + magnitude else magnitude) < UInt64.size := by
    simp only [signBit, UInt64.size] at h ⊢
    split <;> omega
  exact UInt64.toNat_ofNat_of_lt' hbits

theorem isNegative_ofParts (negative : Bool) {magnitude : Nat} (h : magnitude < signBit) :
    (ofParts negative magnitude).isNegative = negative := by
  rw [isNegative, toNat_ofParts negative h]
  cases negative with
  | false => simpa using h
  | true => simp

theorem magnitude_ofParts (negative : Bool) {magnitude : Nat} (h : magnitude < signBit) :
    (ofParts negative magnitude).magnitude = magnitude := by
  rw [Binary64.magnitude, toNat_ofParts negative h]
  cases negative with
  | false => exact Nat.mod_eq_of_lt h
  | true => exact (Nat.add_mod_left signBit magnitude).trans (Nat.mod_eq_of_lt h)

theorem magnitude_lt (x : Binary64) : x.magnitude < signBit := Nat.mod_lt _ (by decide)

/-- A number is its sign and its magnitude. -/
theorem ofParts_magnitude (x : Binary64) : ofParts x.isNegative x.magnitude = x := by
  have hbits : (ofParts x.isNegative x.magnitude).bits.toNat = x.bits.toNat := by
    have hlt : x.bits.toNat < 2 * signBit := x.bits.toNat_lt
    rw [toNat_ofParts _ x.magnitude_lt, isNegative, magnitude]
    by_cases h : signBit ≤ x.bits.toNat
    · rw [if_pos (decide_eq_true h), Nat.mod_eq_sub_mod h, Nat.mod_eq_of_lt (by omega)]
      omega
    · rw [if_neg (by simpa using h), Nat.mod_eq_of_lt (by omega)]
  cases x with
  | mk bits => exact congrArg mk (UInt64.toNat_inj.mp hbits)

theorem isNegative_neg (x : Binary64) : x.neg.isNegative = !x.isNegative :=
  isNegative_ofParts _ x.magnitude_lt

theorem magnitude_neg (x : Binary64) : x.neg.magnitude = x.magnitude :=
  magnitude_ofParts _ x.magnitude_lt

theorem isFinite_neg (x : Binary64) : x.neg.isFinite = x.isFinite := by
  rw [isFinite, isFinite, x.magnitude_neg]

theorem significand_neg (x : Binary64) : x.neg.significand = x.significand := by
  rw [significand, significand, x.magnitude_neg]

theorem exponent_neg (x : Binary64) : x.neg.exponent = x.exponent := by
  rw [exponent, exponent, x.magnitude_neg]

theorem size_neg (x : Binary64) : x.neg.size = x.size := by
  rw [size, size, x.significand_neg, x.exponent_neg]

theorem value_neg (x : Binary64) : x.neg.value = -x.value := by
  rw [value, value, x.isNegative_neg, x.size_neg]
  cases x.isNegative with
  | false => simp
  | true => simp

end Binary64

/-- A number is neither infinite nor undefined. -/
def Number.IsFinite : Number → Prop
  | .int _ => True
  | .float x => x.isFinite = true

/-- A document is a number with a sign applied to it. The only integer whose opposite is no integer
of 64 bits becomes a floating-point number of the same value, and `null` stands for a number that
is not finite. -/
inductive Number.SignedAs (negated : Bool) : Number → Document → Prop where
  | int {n : Int64} {k : Int} (hvalue : k = if negated then -n.toInt else n.toInt)
      (hrange : k ≤ Int64.maxValue.toInt) : SignedAs negated (.int n) (.int k)
  | overflow {n : Int64} {x : Binary64} (hnegated : negated = true)
      (hrange : Int64.maxValue.toInt < -n.toInt) (hfinite : x.isFinite = true)
      (hvalue : x.value = -n.toInt) : SignedAs negated (.int n) (.float x)
  | float {x y : Binary64} (hfinite : x.isFinite = true)
      (hsign : y.isNegative = (x.isNegative ^^ negated))
      (hvalue : y.value = if negated then -x.value else x.value) :
      SignedAs negated (.float x) (.float y)
  | notFinite {x : Binary64} (h : x.isFinite = false) : SignedAs negated (.float x) .null

theorem Number.signedAs_false (n : Number) : n.SignedAs false n.toDocument := by
  cases n with
  | int n => exact .int rfl n.toInt_le
  | float x =>
    rw [Number.toDocument]
    split
    · rename_i hfinite
      exact .float hfinite (Bool.xor_false _).symm rfl
    · rename_i hfinite
      exact .notFinite (Bool.eq_false_of_not_eq_true hfinite)

/-- The opposite of the least integer, `2 ^ 63`. -/
theorem Binary64.value_opposite_minValue :
    (Binary64.ofNat Int64.minValue.toInt.natAbs).value = -(Int64.minValue.toInt : ℚ) := by
  have hparts : (ofNat Int64.minValue.toInt.natAbs).isNegative = false ∧
      (ofNat Int64.minValue.toInt.natAbs).significand = 4503599627370496 ∧
      (ofNat Int64.minValue.toInt.natAbs).exponent = 11 := by
    decide +kernel
  have hmin : Int64.minValue.toInt = -9223372036854775808 := by decide
  have hpowers : (11 : Int).toNat = 11 ∧ (-11 : Int).toNat = 0 := ⟨rfl, rfl⟩
  rw [value, size, hparts.1, hparts.2.1, hparts.2.2, hpowers.1, hpowers.2, hmin]
  norm_num

/-- Every other integer has its opposite. -/
theorem Number.toInt_neg {n : Int64} (h : n ≠ Int64.minValue) : (-n).toInt = -n.toInt := by
  have hmin : Int64.minValue.toInt = -9223372036854775808 := by decide
  have hmax : Int64.maxValue.toInt = 9223372036854775807 := by decide
  have hne : n.toInt ≠ Int64.minValue.toInt := fun heq => h (Int64.toInt_inj.mp heq)
  have hle := n.minValue_le_toInt
  have hge := n.toInt_le
  rw [Int64.toInt_neg]
  exact Int.bmod_eq_of_le (by omega) (by omega)

theorem Number.signedAs_true (n : Number) : n.SignedAs true n.neg.toDocument := by
  cases n with
  | int n =>
    rw [Number.neg]
    split
    · rename_i hmin
      rw [hmin, Number.toDocument, if_pos (by decide +kernel)]
      exact .overflow rfl (by decide) (by decide +kernel)
        (Binary64.value_opposite_minValue.trans (by norm_cast))
    · rename_i hmin
      have hneg : (-n).toInt = -n.toInt := Number.toInt_neg hmin
      rw [Number.toDocument, hneg]
      exact .int rfl (hneg ▸ (-n).toInt_le)
  | float x =>
    rw [Number.neg, Number.toDocument, x.isFinite_neg]
    split
    · rename_i hfinite
      exact .float hfinite (by rw [x.isNegative_neg, Bool.xor_true]) x.value_neg
    · rename_i hfinite
      exact .notFinite (Bool.eq_false_of_not_eq_true hfinite)

end Workflow

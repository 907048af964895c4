import Workflow.Proofs.Number.Integer

/-!
# Floating-point numbers in expressions

The text of a finite number in an expression is a single number again. It is the same number unless
that is whole and below `2 ^ 63`: without a point its digits are read as an integer, which has the
value of the number up to `2 ^ 53` and beyond that is an integer whose nearest number it is.
-/

namespace Workflow

namespace Binary64

theorem abs_value (x : Binary64) : |x.value| = x.size := by
  rw [value]
  split
  · rw [abs_neg, abs_of_nonneg x.size_nonneg]
  · exact abs_of_nonneg x.size_nonneg

theorem le_magnitude_of_roundsTo {x : Binary64} (hfinite : x.isFinite = true) {d : Nat}
    (h : RoundsTo d x.magnitude) (hd : ¬ d ≤ Numeral.exactLimit) :
    1076 * hiddenBit ≤ x.magnitude := by
  refine h.le_of_sizeAt_le (of_decide_eq_true hfinite) ?_
  rw [sizeAt_exactLimit]
  exact_mod_cast (Nat.lt_of_not_le hd).le

/-- Whatever an integer is rounded to is whole, and an integer up to `2 ^ 53` is not changed. -/
theorem exists_size_eq_of_roundsTo {x : Binary64} (hfinite : x.isFinite = true) {d : Nat}
    (h : RoundsTo d x.magnitude) :
    ∃ k : Nat, x.size = k ∧ (d ≤ Numeral.exactLimit → k = d) := by
  by_cases hlimit : d ≤ Numeral.exactLimit
  · obtain ⟨j, hj, hsize⟩ := exists_sizeAt_eq hlimit
    have hmagnitude : x.magnitude = j :=
      h.unique (hsize ▸ roundsTo_sizeAt j) (of_decide_eq_true hfinite).le (hj.trans (by decide))
    exact ⟨d, by rw [size_eq_sizeAt, hmagnitude, hsize], fun _ => rfl⟩
  · -- beyond `2 ^ 53` all numbers are whole
    have hle := le_magnitude_of_roundsTo hfinite h hlimit
    have hexponent : 0 ≤ x.exponent := by
      have hdiv : 1076 ≤ x.magnitude / hiddenBit := (Nat.le_div_iff_mul_le (by decide)).mpr hle
      have hnot : ¬ x.magnitude < hiddenBit := by
        have : hiddenBit ≤ 1076 * hiddenBit := by decide
        omega
      rw [exponent, if_neg hnot]
      omega
    obtain ⟨e, he⟩ := Int.eq_ofNat_of_zero_le hexponent
    refine ⟨x.significand * Nat.pow 2 e, ?_, fun hle => absurd hle hlimit⟩
    rw [size_eq_mul, he, zpow_natCast, Nat.cast_mul, cast_natPow, Nat.cast_ofNat]

/-- A number is told by its sign and its size. -/
theorem eq_ofParts_of_size_eq {x : Binary64} {k : Nat} (h : x.size = sizeAt k) :
    x = ofParts x.isNegative k := by
  rw [size_eq_sizeAt] at h
  rw [← strictMono_sizeAt.injective h, ofParts_magnitude]

/-! ## Digits of whole numbers -/

section Digits

variable {x : Binary64} (hfinite : x.isFinite = true) {d : Nat} (hd : (x.shortest .up).value = d)
include hfinite hd

theorem roundsTo_digits : RoundsTo d x.magnitude := hd ▸ roundsTo_shortest .up hfinite

/-- Up to `2 ^ 53` the digits are those of the number. -/
theorem size_eq_digits (h : x.size ≤ Numeral.exactLimit) : x.size = d := by
  have hrounds := roundsTo_digits hfinite hd
  by_cases hlimit : d ≤ Numeral.exactLimit
  · obtain ⟨k, hsize, hk⟩ := exists_size_eq_of_roundsTo hfinite hrounds
    rw [hsize, hk hlimit]
  · -- only `2 ^ 53` itself could be written by a larger integer
    have hle := le_magnitude_of_roundsTo hfinite hrounds hlimit
    have hsize : x.size = sizeAt (1076 * hiddenBit) := by
      refine le_antisymm (h.trans_eq sizeAt_exactLimit.symm) ?_
      rw [size_eq_sizeAt]
      exact strictMono_sizeAt.monotone hle
    have hshortest (negative : Bool) :
        (ofParts negative (1076 * hiddenBit)).shortest .up = ⟨Numeral.exactLimit, 0⟩ := by
      cases negative <;> decide +kernel
    rw [eq_ofParts_of_size_eq hsize, hshortest, Decimal.value, zpow_zero, mul_one, Nat.cast_inj] at hd
    exact absurd hd.ge hlimit

theorem digits_lt (h : x.size < 2 ^ 63) : d < 2 ^ 63 := by
  refine Nat.lt_of_not_le fun hle => ?_
  have hsize : sizeAt (1086 * hiddenBit) = 2 ^ 63 := sizeAt_mul_hiddenBit 1085
  have hmagnitude := (roundsTo_digits hfinite hd).le_of_sizeAt_le (j := 1086 * hiddenBit)
    (of_decide_eq_true hfinite) (by rw [hsize]; exact_mod_cast hle)
  have hge := strictMono_sizeAt.monotone hmagnitude
  rw [hsize, ← size_eq_sizeAt] at hge
  exact absurd hge h.not_ge

/-- The digits of `2 ^ 63` are those of a larger integer. -/
theorem lt_digits (h : 2 ^ 63 ≤ x.size) : 2 ^ 63 < d := by
  have hsize : sizeAt (1086 * hiddenBit) = 2 ^ 63 := sizeAt_mul_hiddenBit 1085
  rcases h.eq_or_lt with heq | hlt
  · have hshortest (negative : Bool) :
        (ofParts negative (1086 * hiddenBit)).shortest .up = ⟨9223372036854776, 3⟩ := by
      cases negative <;> decide +kernel
    rw [eq_ofParts_of_size_eq (heq.symm.trans hsize.symm), hshortest, Decimal.value] at hd
    have hdigits : d = 9223372036854776000 := by
      rw [← Nat.cast_inj (R := ℚ), ← hd]
      norm_num
    rw [hdigits]
    norm_num
  · refine Nat.lt_of_not_le fun hle => ?_
    have hmagnitude := (roundsTo_digits hfinite hd).le_of_le_sizeAt (j := 1086 * hiddenBit)
      (by rw [hsize]; exact_mod_cast hle)
    have hge := strictMono_sizeAt.monotone hmagnitude
    rw [hsize, ← size_eq_sizeAt] at hge
    exact absurd hlt hge.not_gt

end Digits

end Binary64

/-! ## Numerals -/

namespace Numeral

theorem fraction_ofDecimal_ne_nil (isNegative : Bool) {d : Decimal} (h : d.exponent < 0) :
    (ofDecimal isNegative d).fraction ≠ [] := by
  have hne : Decimal.toDigits d.digits ≠ [] := Nat.toDigits_ne_nil
  rw [ofDecimal, if_neg (by omega)]
  split
  · rw [Ne, List.drop_eq_nil_iff]
    omega
  · exact fun hnil => hne (List.append_eq_nil_iff.mp hnil).2

/-- The numeral of a finite number has a fraction, or it is an integer where 64 bits hold its
digits. -/
theorem number?_ofFloat {x : Binary64} (h : x.isFinite = true) :
    ((x.shortest .up).exponent < 0 ∧ (ofFloat x).number? = some (.float x)) ∨
      ∃ d : Nat, 0 ≤ (x.shortest .up).exponent ∧ (x.shortest .up).value = d ∧
        (ofFloat x).number? =
          (Number.ofInt? (if x.isNegative then -(d : Int) else d)).or (some (.float x)) := by
  rcases lt_or_ge (x.shortest .up).exponent 0 with hneg | hpos
  · left
    have hfraction : ¬ (ofFloat x).fraction.isEmpty = true := fun hnil =>
      fraction_ofDecimal_ne_nil x.isNegative hneg (List.isEmpty_iff.mp hnil)
    refine ⟨hneg, (if_neg hfraction).trans ?_⟩
    rw [nearest_ofFloat h, if_pos h]
  · right
    have hwhole : ofFloat x = ⟨x.isNegative, Decimal.toDigits (x.shortest .up).digits ++
        List.replicate (x.shortest .up).exponent.toNat '0', [], none⟩ := if_pos hpos
    refine ⟨Decimal.ofDigits (ofFloat x).whole, hpos, ?_, ?_⟩
    · have hvalue := value_decimal_ofDecimal x.isNegative (x.shortest .up)
      rw [decimal_ofDecimal, if_pos hpos, Decimal.value, zpow_zero, mul_one] at hvalue
      rw [hwhole, Decimal.ofDigits_append_zeros, ofDigits_toDigits, hvalue]
    · have hnumber : (ofFloat x).number? = (Number.ofInt? (ofFloat x).wholeValue).or
          (if (Binary64.nearest (ofFloat x).isNegative (ofFloat x).decimal).isFinite then
            some (.float (.nearest (ofFloat x).isNegative (ofFloat x).decimal)) else none) := by
        rw [hwhole]
        rfl
      rw [hnumber, nearest_ofFloat h, if_pos h, hwhole]
      rfl

/-- A number that is not whole, or not below `2 ^ 63`, is read as itself. -/
theorem number?_ofFloat_eq_float {x : Binary64} (h : x.isFinite = true)
    (hnot : ¬ ∃ k : Int, x.value = k ∧ |k| ≤ Int64.maxValue.toInt) :
    (ofFloat x).number? = some (.float x) := by
  have hmin : Int64.minValue.toInt = -2 ^ 63 := by decide
  have hmax : Int64.maxValue.toInt = 2 ^ 63 - 1 := by decide
  rcases number?_ofFloat h with ⟨-, hnumber⟩ | ⟨d, -, hd, hnumber⟩
  · exact hnumber
  · -- the number is whole, so that it is large, and so are its digits
    obtain ⟨k, hk, -⟩ := Binary64.exists_size_eq_of_roundsTo h (Binary64.roundsTo_digits h hd)
    have hlarge : (2 : ℚ) ^ 63 ≤ x.size := by
      refine le_of_not_gt fun hlt => hnot ⟨if x.isNegative then -(k : Int) else k, ?_, ?_⟩
      · rw [Binary64.value, hk]
        split <;> simp
      · have hlt : k < 2 ^ 63 := by
          rw [hk] at hlt
          exact_mod_cast hlt
        rw [hmax, abs_le]
        split <;> omega
    have hdigits := Binary64.lt_digits h hd hlarge
    have hnone : Number.ofInt? (if x.isNegative then -(d : Int) else d) = none := by
      rw [Number.ofInt?, if_neg]
      rw [hmin, hmax]
      split <;> omega
    rw [hnumber, hnone, Option.none_or]

/-- Every other number is read as an integer near to it. -/
theorem exists_number?_ofFloat_eq_int {x : Binary64} (h : x.isFinite = true) {k : Int}
    (hk : x.value = k) (hrange : |k| ≤ Int64.maxValue.toInt) :
    ∃ i : Int64, (ofFloat x).number? = some (.int i) ∧
      (∀ y : Binary64, |i.toInt - x.value| ≤ |i.toInt - y.value|) ∧
      (k.natAbs ≤ exactLimit → i.toInt = k) := by
  have hmin : Int64.minValue.toInt = -2 ^ 63 := by decide
  have hmax : Int64.maxValue.toInt = 2 ^ 63 - 1 := by decide
  have hsize : x.size = k.natAbs := by
    rw [← x.abs_value, hk, ← Int.cast_abs, Int.abs_eq_natAbs]
    rfl
  have hlt : k.natAbs < 2 ^ 63 := by
    rw [hmax, abs_le] at hrange
    omega
  rcases number?_ofFloat h with ⟨hneg, -⟩ | ⟨d, -, hd, hnumber⟩
  · exact absurd (Binary64.exponent_shortest_nonneg h hsize hlt) hneg.not_ge
  · have hdigits : d < 2 ^ 63 := Binary64.digits_lt h hd (by rw [hsize]; exact_mod_cast hlt)
    obtain ⟨s, hs⟩ : ∃ s, s = if x.isNegative then -(d : Int) else d := ⟨_, rfl⟩
    have hfits : Int64.minValue.toInt ≤ s ∧ s ≤ Int64.maxValue.toInt := by
      rw [hmin, hmax, hs]
      split <;> omega
    have htoInt : (Int64.ofInt s).toInt = s := Int64.toInt_ofInt_of_le (by omega) (by omega)
    have hcast : (s : ℚ) = signed x.isNegative d := by
      rw [hs, signed]
      split <;> simp
    refine ⟨Int64.ofInt s, ?_, fun y => ?_, fun hlimit => ?_⟩
    · rw [hnumber, ← hs, Number.ofInt?, if_pos hfits, Option.some_or]
    · rw [htoInt, hcast]
      exact Binary64.abs_sub_value_le h (Nat.cast_nonneg d) (Binary64.roundsTo_digits h hd) y
    · have hequal := Binary64.size_eq_digits h hd (by rw [hsize]; exact_mod_cast hlimit)
      rw [htoInt, ← Int.cast_inj (α := ℚ), hcast, ← hk, ← hequal]
      rfl

end Numeral

/-! ## Tokens -/

/-- The tokens of a text that is a single token. -/
def Token.alone (l : Lexeme) (text : String) : List Token :=
  [⟨l, text, .start⟩, ⟨.endOfInput, "", .behind text.toList⟩]

theorem tokenize_text_float {x : Binary64} (h : x.isFinite = true) {n : Number}
    (hn : (Numeral.ofFloat x).number? = some n) :
    tokenize (Number.float x).text = .ok (Token.alone (.number n) (Number.float x).text) := by
  rw [Numeral.text_float h, tokenize,
    (Token.scanned_numeral (Numeral.regular_ofFloat h) hn .start).ofSource_image]
  rfl

/-- The text of a finite number that is not whole, or not below `2 ^ 63`, is read as that number. The
text of any other one is read as an integer: no number is nearer to it than the one that was
written, and up to `2 ^ 53` it is equal to it. -/
theorem tokenize_text_float_cases {x : Binary64} (h : x.isFinite = true) :
    ((¬ ∃ k : Int, x.value = k ∧ |k| ≤ Int64.maxValue.toInt) →
      tokenize (Number.float x).text =
        .ok (Token.alone (.number (.float x)) (Number.float x).text)) ∧
    ∀ k : Int, x.value = k → |k| ≤ Int64.maxValue.toInt → ∃ i : Int64,
      tokenize (Number.float x).text = .ok (Token.alone (.number (.int i)) (Number.float x).text) ∧
      (∀ y : Binary64, y.isFinite = true → |i.toInt - x.value| ≤ |i.toInt - y.value|) ∧
      (k.natAbs ≤ Numeral.exactLimit → i.toInt = k) := by
  constructor
  · exact fun hnot => tokenize_text_float h (Numeral.number?_ofFloat_eq_float h hnot)
  · intro k hk hrange
    obtain ⟨i, hnumber, hnearest, hexact⟩ := Numeral.exists_number?_ofFloat_eq_int h hk hrange
    exact ⟨i, tokenize_text_float h hnumber, fun y _ => hnearest y, hexact⟩

/-- The number `2 ^ 60` is read as an integer that is not far from it. -/
theorem tokenize_text_float_cases_sample :
    (⟨0x43B0000000000000⟩ : Binary64).isFinite = true ∧ ∃ i : Int64,
      tokenize (Number.float ⟨0x43B0000000000000⟩).text =
        .ok (Token.alone (.number (.int i)) (Number.float ⟨0x43B0000000000000⟩).text) ∧
      ∀ y : Binary64, y.isFinite = true →
        |i.toInt - (⟨0x43B0000000000000⟩ : Binary64).value| ≤ |i.toInt - y.value| := by
  have hfinite : (⟨0x43B0000000000000⟩ : Binary64).isFinite = true := by decide
  have hvalue : (⟨0x43B0000000000000⟩ : Binary64).value = (1152921504606846976 : Int) := by
    have hparts : (⟨0x43B0000000000000⟩ : Binary64).isNegative = false ∧
        (⟨0x43B0000000000000⟩ : Binary64).significand = 4503599627370496 ∧
        (⟨0x43B0000000000000⟩ : Binary64).exponent = 8 := by
      decide
    rw [Binary64.value, if_neg (by rw [hparts.1]; exact Bool.false_ne_true), Binary64.size_eq_mul,
      hparts.2.1, hparts.2.2]
    norm_num
  obtain ⟨i, htokens, hnearest, -⟩ :=
    (tokenize_text_float_cases hfinite).2 _ hvalue (by decide)
  exact ⟨hfinite, i, htokens, hnearest⟩

/-- A number with a point loses its kind, and a large one its value too. -/
theorem exists_float_read_as_int :
    (∃ x : Binary64, tokenize "1.0" = .ok (Token.alone (.number (.float x)) "1.0") ∧
      (Number.float x).text = "1" ∧ tokenize "1" = .ok (Token.alone (.number (.int 1)) "1")) ∧
    ∃ x : Binary64, tokenize "1152921504606846976.0" =
        .ok (Token.alone (.number (.float x)) "1152921504606846976.0") ∧
      (Number.float x).text = "1152921504606847000" ∧ tokenize "1152921504606847000" =
        .ok (Token.alone (.number (.int 1152921504606847000)) "1152921504606847000") :=
  ⟨⟨⟨0x3FF0000000000000⟩, eq_ok_of_toOption (by decide +kernel), by decide +kernel,
      eq_ok_of_toOption (by decide +kernel)⟩,
    ⟨0x43B0000000000000⟩, eq_ok_of_toOption (by decide +kernel), by decide +kernel,
      eq_ok_of_toOption (by decide +kernel)⟩

end Workflow

import Workflow.Proofs.Number.Written

/-!
# Integers as they are written

A numeral that is read as an integer has no fraction. Without a power of ten the integer is its
exact value. With one it is the floating-point number nearest to that value, which is the value
itself where that is an integer up to `2 ^ 53`, and another number everywhere else.
-/

namespace Workflow

namespace Binary64

/-! ## Whole numbers -/

/-- What is taken for the integer of a number is its value. -/
theorem value_of_toInt? {x : Binary64} {i : Int} (h : x.toInt? = some i) :
    x.isFinite = true ∧ x.value = i := by
  have hfinite : x.isFinite = true := by
    refine Bool.not_eq_false _ ▸ fun hnot => ?_
    rw [toInt?, hnot] at h
    cases h
  rw [toInt?, hfinite, Bool.not_true, if_neg Bool.false_ne_true] at h
  obtain ⟨hwhole, hi⟩ := Option.ite_none_right_eq_some.mp h
  have hunit : ((Nat.pow 2 (-x.exponent).toNat : Nat) : ℚ) ≠ 0 := by
    exact_mod_cast (Nat.pow_pos two_pos).ne'
  have hsize : x.size = (x.significand * Nat.pow 2 x.exponent.toNat /
      Nat.pow 2 (-x.exponent).toNat : Nat) := by
    rw [size, div_eq_iff hunit]
    exact_mod_cast (Nat.div_mul_cancel (Nat.dvd_of_mod_eq_zero hwhole)).symm
  refine ⟨hfinite, ?_⟩
  rw [value, hsize, ← Option.some.inj hi]
  split
  · push_cast
    rfl
  · rfl

theorem sizeAt_exactLimit : sizeAt (1076 * hiddenBit) = Numeral.exactLimit := by
  rw [sizeAt_mul_hiddenBit 1075]
  norm_num [Numeral.exactLimit]

/-- Every integer up to `2 ^ 53` is the value of a magnitude. -/
theorem exists_sizeAt_eq {k : Nat} (h : k ≤ Numeral.exactLimit) :
    ∃ j ≤ 1076 * hiddenBit, sizeAt j = k := by
  rcases Nat.eq_zero_or_pos k with rfl | hpos
  · exact ⟨0, Nat.zero_le _, by rw [sizeAt_zero, Nat.cast_zero]⟩
  · rcases Nat.lt_or_eq_of_le h with hlt | rfl
    · -- the digits are moved up until there are fifty-three of them
      obtain ⟨s, hs⟩ : ∃ s, s + k.log2 = 52 := by
        have hlog : k.log2 < 53 := (Nat.log2_lt hpos.ne').mpr hlt
        exact ⟨52 - k.log2, by omega⟩
      have hscale : hiddenBit = 2 ^ k.log2 * 2 ^ s := by
        rw [← Nat.pow_add, Nat.add_comm, hs]
        rfl
      have hlow : hiddenBit ≤ k * 2 ^ s := by
        rw [hscale]
        exact Nat.mul_le_mul_right _ (Nat.log2_self_le hpos.ne')
      have hhigh : k * 2 ^ s ≤ 2 * hiddenBit := by
        rw [hscale, ← Nat.mul_assoc, ← Nat.pow_succ']
        exact Nat.mul_le_mul_right _ Nat.lt_log2_self.le
      refine ⟨(1022 + k.log2) * hiddenBit + k * 2 ^ s, ?_, ?_⟩
      · calc (1022 + k.log2) * hiddenBit + k * 2 ^ s ≤ 1074 * hiddenBit + 2 * hiddenBit :=
              Nat.add_le_add (Nat.mul_le_mul_right _ (by omega)) hhigh
          _ = 1076 * hiddenBit := by rw [← Nat.add_mul]
      · rw [sizeAt_add hhigh (.inr hlow), Nat.cast_mul, Nat.cast_pow, mul_assoc, ← zpow_natCast,
          Nat.cast_ofNat, ← zpow_add₀ two_ne_zero,
          show (s + ((1022 + k.log2 : Nat) - 1074) : ℤ) = 0 by push_cast; omega, zpow_zero, mul_one]
    · exact ⟨1076 * hiddenBit, le_rfl, sizeAt_exactLimit⟩

/-- Every integer up to `2 ^ 53` is the value of a finite number. -/
theorem exists_value_eq {k : Int} (h : k.natAbs ≤ Numeral.exactLimit) :
    ∃ y : Binary64, y.isFinite = true ∧ y.value = k := by
  obtain ⟨j, hj, hsize⟩ := exists_sizeAt_eq h
  have hfinite : j < infinite := lt_of_le_of_lt hj (by decide)
  have hlt : j < signBit := hfinite.trans (by decide)
  refine ⟨.ofParts (k < 0) j, ?_, ?_⟩
  · rw [isFinite, magnitude_ofParts _ hlt, decide_eq_true hfinite]
  · rw [value, isNegative_ofParts _ hlt, size_eq_sizeAt,
      magnitude_ofParts _ hlt, hsize]
    by_cases hk : k < 0
    · rw [if_pos (decide_eq_true hk), ← Int.cast_natCast, ← Int.cast_neg]
      congr 1
      omega
    · rw [if_neg (by simpa using hk), ← Int.cast_natCast]
      congr 1
      omega

end Binary64

/-! ## Numerals -/

namespace Numeral

/-- The value that a numeral writes. -/
def value (n : Numeral) : ℚ :=
  signed n.isNegative ((Decimal.ofDigits n.whole +
    Decimal.ofDigits n.fraction / 10 ^ n.fraction.length) *
      10 ^ (n.power.map Power.value).getD 0)

theorem value_eq_decimal (n : Numeral) : n.value = signed n.isNegative n.decimal.value := by
  have hpow : (10 : ℚ) ^ n.fraction.length ≠ 0 := by positivity
  rw [value, Decimal.value, decimal, Decimal.ofDigits_append, Nat.cast_add, Nat.cast_mul,
    cast_natPow, Nat.cast_ofNat, zpow_sub₀ (by norm_num1), zpow_natCast]
  congr 1
  field_simp

/-- The ways in which a numeral becomes an integer. -/
theorem number?_eq_int {n : Numeral} {i : Int64} (h : n.number? = some (.int i)) :
    n.fraction = [] ∧ (n.power = none ∧ n.wholeValue = i.toInt ∨
      n.power ≠ none ∧ (Binary64.nearest n.isNegative n.decimal).toInt? = some i.toInt ∧
        i.toInt.natAbs ≤ exactLimit) := by
  have float (x : Binary64) : (if x.isFinite then some (Number.float x) else none) ≠
      some (.int i) := by
    split <;> simp
  have hmin : Int64.minValue.toInt = -9223372036854775808 := by decide
  have hmax : Int64.maxValue.toInt = 9223372036854775807 := by decide
  unfold number? at h
  dsimp only at h
  by_cases hfraction : n.fraction.isEmpty = true
  · refine ⟨List.isEmpty_iff.mp hfraction, ?_⟩
    rw [if_pos hfraction] at h
    cases hpower : n.power with
    | none =>
      rw [hpower] at h
      rcases Option.or_eq_some_iff.mp h with hint | ⟨-, hfloat⟩
      · obtain ⟨hrange, heq⟩ := Option.ite_none_right_eq_some.mp hint
        cases heq
        rw [Int64.toInt_ofInt_of_le (by omega) (by omega)]
        exact .inl ⟨rfl, rfl⟩
      · exact absurd hfloat (float _)
    | some p =>
      rw [hpower] at h
      dsimp only at h
      cases hint : (Binary64.nearest n.isNegative n.decimal).toInt? with
      | none =>
        rw [hint] at h
        exact absurd h (float _)
      | some k =>
        rw [hint] at h
        dsimp only at h
        by_cases hlimit : k.natAbs ≤ exactLimit
        · rw [if_pos hlimit] at h
          cases h
          have hexact : exactLimit = 9007199254740992 := rfl
          rw [Int64.toInt_ofInt_of_le (by omega) (by omega)]
          exact .inr ⟨Option.some_ne_none p, rfl, hlimit⟩
        · rw [if_neg hlimit] at h
          exact absurd h (float _)
  · rw [if_neg hfraction] at h
    exact absurd h (float _)

/-- A numeral without a fraction and a power of ten writes its whole digits. -/
theorem value_eq_wholeValue {n : Numeral} (hfraction : n.fraction = []) (hpower : n.power = none) :
    n.value = n.wholeValue := by
  have hdigits : n.value = signed n.isNegative (Decimal.ofDigits n.whole : Nat) := by
    rw [value_eq_decimal, Decimal.value, decimal, hfraction, hpower, List.append_nil]
    simp
  rw [hdigits, wholeValue, signed]
  cases n.isNegative with
  | false => rfl
  | true => exact (Int.cast_neg _).symm

/-- No floating-point number is nearer to what is written than the one it is rounded to. -/
theorem abs_value_sub_nearest_le {n : Numeral}
    (hfinite : (Binary64.nearest n.isNegative n.decimal).isFinite = true) (y : Binary64) :
    |n.value - (Binary64.nearest n.isNegative n.decimal).value| ≤ |n.value - y.value| := by
  have hrounds : Binary64.RoundsTo n.decimal.value
      (Binary64.nearest n.isNegative n.decimal).magnitude := by
    rw [Binary64.nearest, Binary64.magnitude_ofParts _ (Binary64.nearestMagnitude_lt _)]
    exact Binary64.roundsTo_nearestMagnitude _
  have hle := Binary64.abs_sub_value_le hfinite (Decimal.value_nonneg _) hrounds y
  rwa [Binary64.nearest, Binary64.isNegative_ofParts _ (Binary64.nearestMagnitude_lt _),
    ← Binary64.nearest, ← value_eq_decimal] at hle

/-- The integer that a numeral with a power of ten becomes is a floating-point number, and none is
nearer to what is written. -/
theorem abs_value_sub_le {n : Numeral} {i : Int}
    (h : (Binary64.nearest n.isNegative n.decimal).toInt? = some i) :
    ∃ x : Binary64, x.isFinite = true ∧ x.value = i ∧
      ∀ y : Binary64, |n.value - i| ≤ |n.value - y.value| := by
  obtain ⟨hfinite, hvalue⟩ := Binary64.value_of_toInt? h
  exact ⟨_, hfinite, hvalue, fun y => hvalue ▸ abs_value_sub_nearest_le hfinite y⟩

end Numeral

/-- A token that is an integer has a numeral without a fraction for its image. Without a power of
ten the integer is what is written. With one it is the floating-point number nearest to what is
written, and it is what is written exactly if that is an integer up to `2 ^ 53`. -/
theorem tokenize_int_value {source : String} {tokens : List Token} (h : tokenize source = .ok tokens)
    {t : Token} (ht : t ∈ tokens) {i : Int64} (hi : t.lexeme = .number (.int i)) :
    ∃ n : Numeral, n.Regular ∧ t.image = String.ofList n.chars ∧ n.fraction = [] ∧
      (n.power = none → n.value = i.toInt) ∧
      (n.power ≠ none → i.toInt.natAbs ≤ Numeral.exactLimit ∧
        ∃ x : Binary64, x.isFinite = true ∧ x.value = i.toInt ∧
          ∀ y : Binary64, y.isFinite = true → |n.value - x.value| ≤ |n.value - y.value|) ∧
      (n.value = i.toInt ↔
        n.power = none ∨ ∃ k : Int, n.value = k ∧ k.natAbs ≤ Numeral.exactLimit) := by
  have hread : Token.ofChars false (.behind []) source.toList = .ok tokens := mapError_eq_ok.mp h
  have hne : t.lexeme ≠ .endOfInput := by
    rw [hi]
    exact Lexeme.noConfusion
  obtain ⟨afterValue, hscanned⟩ := (Token.tiling_ofChars hread).2.scanned t ht hne
  obtain ⟨n, hregular, himage, hnumber⟩ := Token.exists_numeral_of_scanned hscanned hi
  obtain ⟨hfraction, hcases⟩ := Numeral.number?_eq_int hnumber
  refine ⟨n, hregular, himage, hfraction, ?_⟩
  rcases hcases with ⟨hpower, hwhole⟩ | ⟨hpower, hint, hlimit⟩
  · have hvalue : n.value = i.toInt := by rw [Numeral.value_eq_wholeValue hfraction hpower, hwhole]
    exact ⟨fun _ => hvalue, fun hsome => absurd hpower hsome, fun _ => .inl hpower, fun _ => hvalue⟩
  · obtain ⟨x, hfinite, hx, hnearest⟩ := Numeral.abs_value_sub_le hint
    refine ⟨fun hnone => absurd hnone hpower, fun _ => ⟨hlimit, x, hfinite, hx, fun y _ => ?_⟩,
      ?_⟩
    · rw [hx]
      exact hnearest y
    · constructor
      · exact fun hvalue => .inr ⟨i.toInt, hvalue, hlimit⟩
      · rintro (hnone | ⟨k, hk, hklimit⟩)
        · exact absurd hnone hpower
        · -- an integer of that size is a number itself, and nothing else is as near to it
          obtain ⟨y, -, hy⟩ := Binary64.exists_value_eq hklimit
          have hle := hnearest y
          rw [hy, hk, sub_self, abs_zero] at hle
          rw [hk]
          exact sub_eq_zero.mp (abs_nonpos_iff.mp hle)

theorem tokenize_int_value_sample :
    tokenize "x-9007199254740993e0" = .ok [⟨.identifier "x", "x", .start⟩,
        ⟨.symbol .minus, "-", ⟨1, 1, 2⟩⟩,
        ⟨.number (.int 9007199254740992), "9007199254740993e0", ⟨2, 1, 3⟩⟩,
        ⟨.endOfInput, "", ⟨20, 1, 21⟩⟩] ∧
      ∃ n : Numeral, n.Regular ∧ "9007199254740993e0" = String.ofList n.chars ∧
        (n.value = (9007199254740992 : Int64).toInt ↔
          n.power = none ∨ ∃ k : Int, n.value = k ∧ k.natAbs ≤ Numeral.exactLimit) := by
  have htokens : tokenize "x-9007199254740993e0" = .ok [⟨.identifier "x", "x", .start⟩,
      ⟨.symbol .minus, "-", ⟨1, 1, 2⟩⟩,
      ⟨.number (.int 9007199254740992), "9007199254740993e0", ⟨2, 1, 3⟩⟩,
      ⟨.endOfInput, "", ⟨20, 1, 21⟩⟩] := eq_ok_of_toOption (by decide +kernel)
  obtain ⟨n, hregular, himage, -, -, -, hexact⟩ := tokenize_int_value htokens
    (.tail _ (.tail _ (.head _))) rfl
  exact ⟨htokens, n, hregular, himage, hexact⟩

/-- A numeral between zero and one is read as the integer zero. -/
theorem exists_int_ne_value : ∃ n : Numeral, n.Regular ∧ String.ofList n.chars = "1e-400" ∧
    (0 < n.value ∧ n.value < 1) ∧
    tokenize "1e-400" = .ok [⟨.number (.int 0), "1e-400", .start⟩,
      ⟨.endOfInput, "", ⟨6, 1, 7⟩⟩] := by
  have hvalue : (Numeral.scan "1e-400".toList).value = 10 ^ (-400 : ℤ) := by
    have hdecimal : (Numeral.scan "1e-400".toList).decimal = ⟨1, -400⟩ := by decide
    have hsign : (Numeral.scan "1e-400".toList).isNegative = false := by decide
    rw [Numeral.value_eq_decimal, hdecimal, hsign, signed, if_neg Bool.false_ne_true, Decimal.value,
      Nat.cast_one, one_mul]
  refine ⟨Numeral.scan "1e-400".toList,
    (@Lexeme.startsNumeral_spec false _ _ (by decide)).1, by decide, ?_,
    eq_ok_of_toOption (by decide +kernel)⟩
  rw [hvalue]
  exact ⟨by positivity, zpow_lt_one_of_neg₀ (by norm_num1) (by decide)⟩

end Workflow

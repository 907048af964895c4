import Workflow.Expr.Text
import Workflow.Proofs.Number.Shortest
import Workflow.Proofs.Token.Written

/-!
# Numbers as they are written

The text of a finite number in an expression is a numeral without a power of ten, and it stands for
a number again. A sign in front of a numeral gives the opposite number.
-/

namespace Workflow

/-! ## Digits -/

namespace Decimal

theorem ofDigits_append (cs ds : List Char) :
    ofDigits (cs ++ ds) = ofDigits cs * Nat.pow 10 ds.length + ofDigits ds := by
  rw [Nat.mul_comm]
  exact (Nat.ofDigitChars_append 0).trans Nat.ofDigitChars_eq_ofDigitChars_zero

theorem ofDigits_zeros_append (k : Nat) (cs : List Char) :
    ofDigits (List.replicate k '0' ++ cs) = ofDigits cs := by
  induction k with
  | zero => rfl
  | succ k ih => exact ih

theorem ofDigits_append_zeros (cs : List Char) (k : Nat) :
    ofDigits (cs ++ List.replicate k '0') = ofDigits cs * Nat.pow 10 k := by
  have hzeros := ofDigits_zeros_append k []
  rw [List.append_nil] at hzeros
  rw [ofDigits_append, hzeros, List.length_replicate]
  rfl

end Decimal

namespace Numeral

open Decimal

/-- The numeral of a decimal without a power of ten. -/
def ofDecimal (isNegative : Bool) (d : Decimal) : Numeral :=
  let digits := toDigits d.digits
  let places := (-d.exponent).toNat
  if 0 ≤ d.exponent then ⟨isNegative, digits ++ List.replicate d.exponent.toNat '0', [], none⟩
  else if places < digits.length then
    ⟨isNegative, digits.take (digits.length - places), digits.drop (digits.length - places), none⟩
  else ⟨isNegative, ['0'], List.replicate (places - digits.length) '0' ++ digits, none⟩

theorem chars_ofDecimal (isNegative : Bool) (d : Decimal) : (ofDecimal isNegative d).chars =
    (if isNegative then ['-'] else []) ++
      FloatLayout.positional false (toDigits d.digits) d.exponent := by
  rw [chars_eq, ofDecimal, FloatLayout.positional]
  dsimp only
  by_cases hexponent : 0 ≤ d.exponent
  · rw [if_pos hexponent, if_pos hexponent]
    simp [fractionChars, powerChars]
  · rw [if_neg hexponent, if_neg hexponent]
    by_cases hplaces : (-d.exponent).toNat < (toDigits d.digits).length
    · rw [if_pos hplaces, if_pos hplaces]
      have hfraction : (toDigits d.digits).drop
          ((toDigits d.digits).length - (-d.exponent).toNat) ≠ [] := by
        rw [Ne, List.drop_eq_nil_iff]
        omega
      simp [fractionChars, powerChars, hfraction]
    · rw [if_neg hplaces, if_neg hplaces]
      simp [fractionChars, powerChars, @Nat.toDigits_ne_nil, toDigits]

theorem regular_ofDecimal (isNegative : Bool) {d : Decimal}
    (h : d.digits = 0 → d.exponent = 0) : (ofDecimal isNegative d).Regular := by
  have hdigit : ∀ c ∈ toDigits d.digits, isDigit c = true := fun c => isDigit_of_mem_toDigits
  have hzeros (k : Nat) : ∀ c ∈ List.replicate k '0', isDigit c = true := by
    intro c hc
    rw [(List.mem_replicate.mp hc).2]
    decide
  have hhead (hpos : 0 < d.digits) := head?_toDigits hpos
  have hne : toDigits d.digits ≠ [] := Nat.toDigits_ne_nil
  rw [ofDecimal]
  split_ifs with hexponent hplaces
  · refine ⟨?_, List.forall_mem_nil _, by simp⟩
    rcases Nat.eq_zero_or_pos d.digits with hzero | hpos
    · -- zero has no further zeros
      left
      rw [h hzero, hzero]
      rfl
    · refine .inr ⟨by simp [hne], ?_, List.forall_mem_append.mpr ⟨hdigit, hzeros _⟩⟩
      rw [List.head?_append_of_ne_nil _ hne]
      exact hhead hpos
  · have hpos : 0 < d.digits := Nat.pos_of_ne_zero fun hzero => hexponent (h hzero).ge
    refine ⟨.inr ⟨?_, ?_, fun c hc => hdigit c (List.mem_of_mem_take hc)⟩,
      fun c hc => hdigit c (List.mem_of_mem_drop hc), by simp⟩
    · rw [Ne, List.take_eq_nil_iff]
      simp only [hne, or_false]
      omega
    · rw [List.head?_take, if_neg (by omega)]
      exact hhead hpos
  · exact ⟨.inl rfl, List.forall_mem_append.mpr ⟨hzeros _, hdigit⟩, by simp⟩

/-- A numeral without a power of ten has the value of its decimal. -/
theorem decimal_ofDecimal (isNegative : Bool) (d : Decimal) : (ofDecimal isNegative d).decimal =
    if 0 ≤ d.exponent then ⟨d.digits * Nat.pow 10 d.exponent.toNat, 0⟩ else d := by
  rw [ofDecimal]
  split_ifs with hexponent hplaces
  · rw [decimal, List.append_nil, ofDigits_append_zeros, ofDigits_toDigits]
    rfl
  · rw [decimal, List.take_append_drop, ofDigits_toDigits, List.length_drop]
    show Decimal.mk _ (0 - _) = _
    congr 1
    omega
  · rw [decimal, List.singleton_append, ← List.cons_append, ← List.replicate_succ,
      ofDigits_zeros_append, ofDigits_toDigits]
    show Decimal.mk _ (0 - _) = _
    congr 1
    simp
    omega

theorem value_decimal_ofDecimal (isNegative : Bool) (d : Decimal) :
    (ofDecimal isNegative d).decimal.value = d.value := by
  rw [decimal_ofDecimal]
  split_ifs with hexponent
  · have hone : (-d.exponent).toNat = 0 := by omega
    rw [Decimal.value, Nat.cast_mul, zpow_zero, mul_one, natPow_toNat (by decide), hone,
      cast_natPow, pow_zero, mul_one, Nat.cast_ofNat]
    rfl
  · rfl

end Numeral

/-! ## Finite numbers -/

namespace Binary64

/-- The number nearest to the opposite is the opposite number. -/
theorem neg_nearest (negative : Bool) (d : Decimal) :
    (nearest negative d).neg = nearest (!negative) d := by
  rw [neg, nearest, isNegative_ofParts negative (nearestMagnitude_lt d),
    magnitude_ofParts negative (nearestMagnitude_lt d), nearest]

theorem toInt?_neg (x : Binary64) : x.neg.toInt? = x.toInt?.map (-·) := by
  unfold toInt?
  rw [x.isFinite_neg, x.significand_neg, x.exponent_neg, x.isNegative_neg]
  dsimp only
  split_ifs with hfinite hwhole hsign <;> simp_all

end Binary64

namespace Numeral

/-- A numeral with a finite value stands for a number. -/
theorem exists_number? {n : Numeral} (h : (Binary64.nearest n.isNegative n.decimal).isFinite = true) :
    ∃ x, n.number? = some x := by
  unfold number?
  simp only [h, if_true]
  split
  · split
    · cases Number.ofInt? n.wholeValue with
      | none => exact ⟨_, rfl⟩
      | some x => exact ⟨_, rfl⟩
    · split
      · split
        · exact ⟨_, rfl⟩
        · exact ⟨_, rfl⟩
      · exact ⟨_, rfl⟩
  · exact ⟨_, rfl⟩

/-- The numeral of a finite number in an expression. -/
def ofFloat (x : Binary64) : Numeral := ofDecimal x.isNegative (x.shortest .up)

theorem text_float {x : Binary64} (h : x.isFinite = true) :
    (Number.float x).text = String.ofList (ofFloat x).chars := by
  rw [Number.text, if_pos h, ofFloat, chars_ofDecimal, FloatLayout.chars, exprFloat]
  cases x.isNegative <;> rfl

theorem regular_ofFloat {x : Binary64} (h : x.isFinite = true) : (ofFloat x).Regular := by
  refine regular_ofDecimal _ fun hzero => ?_
  rw [Binary64.shortest_eq_zero h hzero]

theorem isNegative_ofDecimal (isNegative : Bool) (d : Decimal) :
    (ofDecimal isNegative d).isNegative = isNegative := by
  rw [ofDecimal]
  split_ifs <;> rfl

/-- The numeral of a finite number is rounded to the number. -/
theorem nearest_ofFloat {x : Binary64} (h : x.isFinite = true) :
    Binary64.nearest (ofFloat x).isNegative (ofFloat x).decimal = x := by
  rw [ofFloat, isNegative_ofDecimal]
  exact Binary64.nearest_eq_of_value_eq h (value_decimal_ofDecimal _ _)

end Numeral

/-- The text of a finite number is scanned as a number. -/
theorem Token.exists_scanned_float {x : Binary64} (h : x.isFinite = true) :
    ∃ n : Number, ∀ p, Scanned false ⟨.number n, (Number.float x).text, p⟩ := by
  obtain ⟨n, hn⟩ := Numeral.exists_number? (n := .ofFloat x) (by rwa [Numeral.nearest_ofFloat h])
  rw [Numeral.text_float h]
  exact ⟨n, Token.scanned_numeral (Numeral.regular_ofFloat h) hn⟩

/-! ## Signs -/

/-- The least integer is its own opposite in 64 bits, and no other is. -/
theorem Number.neg_int_neg {n : Int64} (h : Int64.minValue.toInt < n.toInt) :
    Number.neg (.int (-n)) = .int n := by
  have hne : -n ≠ Int64.minValue := by
    intro hmin
    have heq : n = Int64.minValue := by
      rw [← Int64.neg_neg (a := n), hmin]
      decide
    rw [heq] at h
    exact absurd h (lt_irrefl _)
  rw [Number.neg, if_neg hne, Int64.neg_neg]

namespace Numeral

/-- The numeral with a sign in front. -/
def negated (n : Numeral) : Numeral := { n with isNegative := true }

/-- The least integer is the only one whose digits alone are too large. -/
theorem eq_of_ofInt?_eq_none {k : Nat} (h : Number.ofInt? k = none) {y : Number}
    (hy : Number.ofInt? (-(k : Int)) = some y) :
    k = 9223372036854775808 ∧ y = .int Int64.minValue := by
  have hmin : Int64.minValue.toInt = -9223372036854775808 := by decide
  have hmax : Int64.maxValue.toInt = 9223372036854775807 := by decide
  rw [Number.ofInt?, Option.ite_none_right_eq_some] at hy
  rw [Number.ofInt?, ite_eq_right_iff] at h
  obtain ⟨hrange, heq⟩ := hy
  have hk : k = 9223372036854775808 := by
    by_contra hne
    exact absurd (h (by omega)) (Option.some_ne_none _)
  cases heq
  rw [hk]
  exact ⟨rfl, by decide⟩

/-- Within 64 bits an integer has its opposite, but for the least one. -/
theorem int_ofInt_eq_neg {i : Int} (hlow : Int64.minValue.toInt < i)
    (hhigh : i ≤ Int64.maxValue.toInt) :
    Number.int (Int64.ofInt i) = (Number.int (Int64.ofInt (-i))).neg := by
  have hmin : Int64.minValue.toInt = -9223372036854775808 := by decide
  have hmax : Int64.maxValue.toInt = 9223372036854775807 := by decide
  rw [Int64.ofInt_neg, Number.neg_int_neg]
  rwa [Int64.toInt_ofInt_of_le (by omega) (by omega)]

theorem exists_ofInt?_neg {k : Nat} {x : Number} (h : Number.ofInt? k = some x) :
    ∃ y : Number, Number.ofInt? (-(k : Int)) = some y ∧ x = y.neg := by
  have hmin : Int64.minValue.toInt = -9223372036854775808 := by decide
  have hmax : Int64.maxValue.toInt = 9223372036854775807 := by decide
  obtain ⟨hrange, heq⟩ := Option.ite_none_right_eq_some.mp h
  cases heq
  refine ⟨.int (Int64.ofInt (-k)), ?_, int_ofInt_eq_neg (by omega) hrange.2⟩
  rw [Number.ofInt?, if_pos (by omega)]

/-- A decimal with a finite value and its opposite. -/
theorem exists_float_neg {d : Decimal} {x : Number}
    (h : (if (Binary64.nearest false d).isFinite then some (Number.float (.nearest false d))
      else none) = some x) :
    ∃ y : Number, (if (Binary64.nearest true d).isFinite then some (Number.float (.nearest true d))
      else none) = some y ∧ x = y.neg := by
  obtain ⟨hfinite, heq⟩ := Option.ite_none_right_eq_some.mp h
  cases heq
  have hfinite' : (Binary64.nearest true d).isFinite = true := by
    rwa [Binary64.isFinite_nearest, ← Binary64.isFinite_nearest false]
  refine ⟨_, if_pos hfinite', ?_⟩
  rw [Number.neg, Binary64.neg_nearest]
  rfl

/-- Digits without a fraction and a power of ten, and the same digits with a sign in front. -/
theorem exists_whole_neg {k : Nat} {x : Number}
    (h : (Number.ofInt? k).or (if (Binary64.nearest false ⟨k, 0⟩).isFinite then
      some (Number.float (.nearest false ⟨k, 0⟩)) else none) = some x) :
    ∃ y : Number, (Number.ofInt? (-(k : Int))).or (if (Binary64.nearest true ⟨k, 0⟩).isFinite then
      some (Number.float (.nearest true ⟨k, 0⟩)) else none) = some y ∧ x = y.neg := by
  rcases Option.or_eq_some_iff.mp h with hint | ⟨hnone, hfloat⟩
  · obtain ⟨y, hy, hxy⟩ := exists_ofInt?_neg hint
    exact ⟨y, by rw [hy, Option.some_or], hxy⟩
  · cases hy : Number.ofInt? (-(k : Int)) with
    | none => exact exists_float_neg hfloat
    | some y =>
      -- only the least integer has a sign without which it is no integer
      obtain ⟨rfl, rfl⟩ := eq_of_ofInt?_eq_none hnone hy
      obtain ⟨-, heq⟩ := Option.ite_none_right_eq_some.mp hfloat
      cases heq
      exact ⟨_, Option.some_or, by decide +kernel⟩

/-- A numeral and the same numeral with a sign stand for opposite numbers. -/
theorem exists_number?_negated {n : Numeral} (hsign : n.isNegative = false) {x : Number}
    (h : n.number? = some x) : ∃ y : Number, n.negated.number? = some y ∧ x = y.neg := by
  unfold number? at h ⊢
  dsimp only at h ⊢
  rw [hsign] at h
  rw [show n.negated.isNegative = true from rfl, show n.negated.decimal = n.decimal from rfl,
    show n.negated.fraction = n.fraction from rfl, show n.negated.power = n.power from rfl]
  by_cases hfraction : n.fraction.isEmpty = true
  · rw [if_pos hfraction] at h ⊢
    cases hpower : n.power with
    | none =>
      rw [hpower] at h
      dsimp only at h ⊢
      have hvalue : n.wholeValue = (Decimal.ofDigits n.whole : Nat) := by
        rw [wholeValue, hsign]
        rfl
      have hdecimal : n.decimal = ⟨Decimal.ofDigits n.whole, 0⟩ := by
        rw [decimal, List.isEmpty_iff.mp hfraction, List.append_nil, hpower]
        rfl
      rw [hvalue, hdecimal] at h
      rw [hdecimal]
      exact exists_whole_neg h
    | some power =>
      have hopposite := Binary64.neg_nearest false n.decimal
      rw [hpower] at h
      dsimp only at h ⊢
      rw [show true = !false from rfl, ← hopposite, Binary64.toInt?_neg, hopposite]
      cases hint : (Binary64.nearest false n.decimal).toInt? with
      | none =>
        rw [hint] at h
        exact exists_float_neg h
      | some i =>
        rw [hint] at h
        dsimp only [Option.map_some] at h ⊢
        rw [Int.natAbs_neg]
        by_cases hlimit : i.natAbs ≤ exactLimit
        · rw [if_pos hlimit] at h ⊢
          cases h
          have hexact : exactLimit = 9007199254740992 := rfl
          have hmin : Int64.minValue.toInt = -9223372036854775808 := by decide
          have hmax : Int64.maxValue.toInt = 9223372036854775807 := by decide
          exact ⟨_, rfl, int_ofInt_eq_neg (by omega) (by omega)⟩
        · rw [if_neg hlimit] at h ⊢
          exact exists_float_neg h
  · rw [if_neg hfraction] at h ⊢
    exact exists_float_neg h

end Numeral

end Workflow

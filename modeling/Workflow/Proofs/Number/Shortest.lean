import Workflow.Number.Shortest
import Workflow.Proofs.Number.Rounding

/-!
# Shortest decimals

The interval of a number holds the values that are rounded to it, and a point of a grid is tested
against it exactly. The grids become fine enough before the search for a point ends, so the decimal
of a finite number is rounded to the number it was made for.
-/

namespace Workflow.Binary64

/-! ## Intervals -/

/-- The significand and the exponent of a number, and its magnitude told from them. -/
theorem exists_parts (x : Binary64) : ∃ n : Nat, x.exponent = n - 1074 ∧
    x.magnitude = n * hiddenBit + x.significand ∧ x.significand < 2 * hiddenBit ∧
    (n = 0 ∨ hiddenBit ≤ x.significand) := by
  obtain ⟨n, m, hk, hm, h⟩ := exists_binade x.magnitude
  obtain ⟨hsignificand, hexponent⟩ := parts_add hm h
  rw [← hk] at hsignificand hexponent
  rw [show x.significand = m from hsignificand]
  exact ⟨n, hexponent, hk, hm, h⟩

theorem size_eq_mul (x : Binary64) : x.size = x.significand * 2 ^ x.exponent := by
  rw [size_eq_sizeAt]
  rfl

theorem interval_high (x : Binary64) :
    (x.interval.2.1 : ℚ) * 2 ^ (x.exponent - 2) = middle x.magnitude := by
  obtain ⟨n, hexponent, hk, hm, h⟩ := x.exists_parts
  rw [hk, middle_add hm h, hexponent, interval, zpow_sub₀ two_ne_zero]
  push_cast
  ring

theorem interval_low {x : Binary64} {j : Nat} (hj : x.magnitude = j + 1) :
    (x.interval.1 : ℚ) * 2 ^ (x.exponent - 2) = middle j := by
  have hpos : 0 < hiddenBit := by decide
  obtain ⟨n, hexponent, hk, hm, h⟩ := x.exists_parts
  have hinterval : x.interval.1 = 4 * x.significand -
      if x.significand = hiddenBit ∧ x.exponent ≠ -1074 then 1 else 2 := rfl
  rw [hinterval, hexponent]
  generalize x.significand = m at hk hm h ⊢
  by_cases hfirst : m = hiddenBit ∧ (n - 1074 : ℤ) ≠ -1074
  · -- the first number of a binade: the magnitude in front of it belongs to the binade below
    obtain ⟨l, rfl⟩ : ∃ l, n = l + 1 := Nat.exists_eq_succ_of_ne_zero (by omega)
    obtain rfl : j = l * hiddenBit + (2 * hiddenBit - 1) := by
      rw [Nat.add_mul] at hk
      omega
    rw [if_pos hfirst, hfirst.1, middle_add (by omega) (.inr (by omega)), Nat.cast_sub (by omega),
      Nat.cast_sub (by omega), show ((l + 1 : Nat) - 1074 - 2 : ℤ) = (l - 1074 : ℤ) - 1 by
        push_cast; ring, zpow_sub₀ two_ne_zero]
    push_cast
    ring
  · obtain ⟨l, rfl⟩ : ∃ l, m = l + 1 := Nat.exists_eq_succ_of_ne_zero (by
      rintro rfl
      obtain rfl : n = 0 := h.resolve_right (by omega)
      omega)
    obtain rfl : j = n * hiddenBit + l := by omega
    rw [if_neg hfirst, middle_add (by omega) (by omega), Nat.cast_sub (by omega),
      zpow_sub₀ two_ne_zero]
    push_cast
    ring

/-- The ends belong to the interval of an even magnitude. -/
theorem interval_closed (x : Binary64) : x.interval.2.2 = true ↔ x.magnitude % 2 = 0 := by
  obtain ⟨n, -, hk, -⟩ := x.exists_parts
  have hclosed : x.interval.2.2 = decide (x.significand % 2 = 0) := rfl
  rw [hclosed, decide_eq_true_iff, hk, hiddenBit]
  omega

/-- Three units are the least width of an interval. -/
theorem width_le {x : Binary64} {j : Nat} (hj : x.magnitude = j + 1) :
    3 * 2 ^ (x.exponent - 2) ≤ middle x.magnitude - middle j := by
  have hinterval : x.interval.1 + 3 ≤ x.interval.2.1 := by
    have hpos : 0 < x.significand := by
      obtain ⟨n, -, hk, -, h⟩ := x.exists_parts
      refine Nat.pos_of_ne_zero fun hzero => ?_
      rcases h with rfl | h
      · omega
      · exact absurd (hzero ▸ h) (by decide)
    simp only [interval]
    split <;> omega
  have hcast : (x.interval.1 + 3 : ℚ) ≤ x.interval.2.1 := by exact_mod_cast hinterval
  rw [← interval_high, ← interval_low hj, ← sub_mul]
  exact mul_le_mul_of_nonneg_right (by linarith) (by positivity)

/-! ## Grids -/

/-- The unit of the ends of an interval, on the scale of a grid. -/
def gridUnit (x : Binary64) (p : Int) : Nat :=
  Nat.pow 2 (x.exponent - 2).toNat * Nat.pow 10 (-p).toNat

/-- The distance of two points of a grid, on its scale. -/
def gridStep (x : Binary64) (p : Int) : Nat :=
  Nat.pow 10 p.toNat * Nat.pow 2 (-(x.exponent - 2)).toNat

/-- Multiples of the unit and of the step are the values they stand for on one scale. -/
theorem exists_scale (x : Binary64) (p : Int) : ∃ scale : ℚ, 0 < scale ∧
    (∀ a : Nat, ((a * x.gridUnit p : Nat) : ℚ) = a * 2 ^ (x.exponent - 2) * scale) ∧
    ∀ c : Nat, ((c * x.gridStep p : Nat) : ℚ) = c * 10 ^ p * scale := by
  refine ⟨(Nat.pow 10 (-p).toNat * Nat.pow 2 (-(x.exponent - 2)).toNat : Nat), ?_,
    fun a => ?_, fun c => ?_⟩
  · exact_mod_cast Nat.mul_pos (Nat.pow_pos (by decide)) (Nat.pow_pos two_pos)
  · rw [gridUnit, Nat.cast_mul, Nat.cast_mul, Nat.cast_mul, natPow_toNat two_pos, Nat.cast_ofNat]
    ring
  · rw [gridStep, Nat.cast_mul, Nat.cast_mul, Nat.cast_mul, natPow_toNat (by decide : 0 < 10) p,
      Nat.cast_ofNat]
    ring

/-- Whether a point of a grid lies in the interval of a number. -/
def isInside (x : Binary64) (p : Int) (c : Nat) : Bool :=
  (x.interval.1 * x.gridUnit p < c * x.gridStep p ||
      x.interval.2.2 && x.interval.1 * x.gridUnit p = c * x.gridStep p) &&
    (c * x.gridStep p < x.interval.2.1 * x.gridUnit p ||
      x.interval.2.2 && c * x.gridStep p = x.interval.2.1 * x.gridUnit p)

/-- The points inside the interval of a number are those that are rounded to it. -/
theorem isInside_iff {x : Binary64} (hfinite : x.isFinite = true) (hzero : x.magnitude ≠ 0) (p : Int)
    (c : Nat) : x.isInside p c = true ↔ RoundsTo (c * 10 ^ p) x.magnitude := by
  have hinfinite : x.magnitude < infinite := of_decide_eq_true hfinite
  obtain ⟨j, hj⟩ : ∃ j, x.magnitude = j + 1 := Nat.exists_eq_succ_of_ne_zero hzero
  obtain ⟨scale, hscale, hunit, hstep⟩ := x.exists_scale p
  have hlt (a : Nat) : a * x.gridUnit p < c * x.gridStep p ↔
      (a : ℚ) * 2 ^ (x.exponent - 2) < c * 10 ^ p := by
    rw [← Nat.cast_lt (α := ℚ), hunit, hstep, mul_lt_mul_iff_left₀ hscale]
  have hgt (a : Nat) : c * x.gridStep p < a * x.gridUnit p ↔
      (c : ℚ) * 10 ^ p < a * 2 ^ (x.exponent - 2) := by
    rw [← Nat.cast_lt (α := ℚ), hunit, hstep, mul_lt_mul_iff_left₀ hscale]
  have heq (a : Nat) : a * x.gridUnit p = c * x.gridStep p ↔
      (a : ℚ) * 2 ^ (x.exponent - 2) = c * 10 ^ p := by
    rw [← Nat.cast_inj (R := ℚ), hunit, hstep, mul_left_inj' hscale.ne']
  simp only [isInside, Bool.and_eq_true, Bool.or_eq_true, decide_eq_true_eq, interval_closed]
  rw [hlt, heq, hgt, eq_comm (a := c * _), heq, interval_low hj, interval_high,
    eq_comm (a := middle x.magnitude), hj, roundsTo_succ_iff (hj ▸ hinfinite)]

/-- The last point of a grid that is not above a number. -/
def gridFloor (x : Binary64) (p : Int) : Nat := 4 * x.significand * x.gridUnit p / x.gridStep p

theorem gridFloor_spec (x : Binary64) (p : Int) :
    (x.gridFloor p : ℚ) * 10 ^ p ≤ x.size ∧ x.size < (x.gridFloor p + 1 : Nat) * 10 ^ p := by
  obtain ⟨scale, hscale, hunit, hstep⟩ := x.exists_scale p
  have hpos : 0 < x.gridStep p := Nat.mul_pos (Nat.pow_pos (by decide)) (Nat.pow_pos two_pos)
  have hvalue : ((4 * x.significand * x.gridUnit p : Nat) : ℚ) = x.size * scale := by
    rw [hunit, size_eq_mul, zpow_sub₀ two_ne_zero]
    push_cast
    ring
  have hlow : x.gridFloor p * x.gridStep p ≤ 4 * x.significand * x.gridUnit p :=
    Nat.div_mul_le_self _ _
  have hhigh : 4 * x.significand * x.gridUnit p < (x.gridFloor p + 1) * x.gridStep p :=
    (Nat.div_lt_iff_lt_mul hpos).mp (Nat.lt_succ_self _)
  constructor
  · rwa [← Nat.cast_le (α := ℚ), hvalue, hstep, mul_le_mul_iff_left₀ hscale] at hlow
  · rwa [← Nat.cast_lt (α := ℚ), hvalue, hstep, mul_lt_mul_iff_left₀ hscale] at hhigh

/-- A grid is passed over only if neither neighbour of the number lies inside, and what is taken lies
inside. -/
theorem gridPoint?_spec (tie : Tie) (x : Binary64) (p : Int) :
    (∃ c, gridPoint? tie x p = some c ∧ x.isInside p c = true) ∨
      gridPoint? tie x p = none ∧ x.isInside p (x.gridFloor p) = false ∧
        x.isInside p (x.gridFloor p + 1) = false := by
  unfold gridPoint?
  dsimp only
  split
  · rename_i hlow _
    exact .inl ⟨_, rfl, hlow⟩
  · rename_i _ hhigh
    exact .inl ⟨_, rfl, hhigh⟩
  · rename_i hlow hhigh
    exact .inr ⟨rfl, hlow, hhigh⟩
  · rename_i hlow hhigh
    left
    split_ifs
    · exact ⟨_, rfl, hlow⟩
    · exact ⟨_, rfl, hhigh⟩
    · cases tie with
      | toEven => exact ⟨_, rfl, hlow⟩
      | up => exact ⟨_, rfl, hhigh⟩
    · cases tie with
      | _ => exact ⟨_, rfl, hhigh⟩

theorem isInside_of_gridPoint? {tie : Tie} {x : Binary64} {p : Int} {c : Nat}
    (h : gridPoint? tie x p = some c) : x.isInside p c = true := by
  rcases gridPoint?_spec tie x p with ⟨c', hc', hinside⟩ | ⟨hnone, -⟩
  · rw [h] at hc'
    cases hc'
    exact hinside
  · rw [h] at hnone
    cases hnone

/-- A grid finer than the interval has a point in it. -/
theorem exists_gridPoint?_of_lt (tie : Tie) {x : Binary64} (hfinite : x.isFinite = true)
    (hzero : x.magnitude ≠ 0) {p : Int} (h : (10 : ℚ) ^ p < 3 * 2 ^ (x.exponent - 2)) :
    ∃ c, gridPoint? tie x p = some c := by
  rcases gridPoint?_spec tie x p with ⟨c, hc, -⟩ | ⟨-, hlow, hhigh⟩
  · exact ⟨c, hc⟩
  · obtain ⟨j, hj⟩ : ∃ j, x.magnitude = j + 1 := Nat.exists_eq_succ_of_ne_zero hzero
    obtain ⟨hle, hlt⟩ := x.gridFloor_spec p
    have hwidth := width_le hj
    have hbelow := middle_lt_sizeAt j
    have habove := sizeAt_lt_middle x.magnitude
    rw [← hj, ← size_eq_sizeAt] at hbelow
    rw [← size_eq_sizeAt] at habove
    -- the neighbours of the number would lie on both sides of the interval
    have hoff {c : Nat} (hc : x.isInside p c = false) :
        ¬ (middle j < c * 10 ^ p ∧ (c : ℚ) * 10 ^ p < middle x.magnitude) := by
      rintro ⟨hj', hk'⟩
      refine Bool.false_ne_true (hc.symm.trans ((isInside_iff hfinite hzero p c).mpr ?_))
      rw [hj] at hk' ⊢
      exact (roundsTo_succ_iff (hj ▸ of_decide_eq_true hfinite)).mpr ⟨.inl hj', .inl hk'⟩
    have hlow' : (x.gridFloor p : ℚ) * 10 ^ p ≤ middle j :=
      le_of_not_gt fun h' => hoff hlow ⟨h', hle.trans_lt habove⟩
    have hhigh' : middle x.magnitude ≤ (x.gridFloor p + 1 : Nat) * 10 ^ p :=
      le_of_not_gt fun h' => hoff hhigh ⟨hbelow.trans hlt, h'⟩
    push_cast at hhigh'
    linarith

/-- The grid of the integers has a point in the interval of a whole number. -/
theorem exists_gridPoint?_of_whole (tie : Tie) {x : Binary64} (hfinite : x.isFinite = true)
    (hzero : x.magnitude ≠ 0) {k : Nat} (h : x.size = k) : ∃ c, gridPoint? tie x 0 = some c := by
  rcases gridPoint?_spec tie x 0 with ⟨c, hc, -⟩ | ⟨-, hlow, -⟩
  · exact ⟨c, hc⟩
  · have hfloor : x.gridFloor 0 = k := by
      have hspec := x.gridFloor_spec 0
      rw [zpow_zero, mul_one, mul_one, h, Nat.cast_le, Nat.cast_lt] at hspec
      omega
    refine absurd ((isInside_iff hfinite hzero 0 _).mpr ?_) (Bool.eq_false_iff.mp hlow)
    rw [hfloor, zpow_zero, mul_one, ← h, size_eq_sizeAt]
    exact roundsTo_sizeAt _

/-! ## The search -/

/-- The search ends at a grid with a point in the interval, or before it. -/
theorem searchGrid_of_exists {tie : Tie} {x : Binary64} {r : Int}
    (h : ∃ c, gridPoint? tie x r = some c) (tries : Nat) {p : Int} (hle : r ≤ p)
    (hlt : p < r + tries) :
    ∃ q c, r ≤ q ∧ gridPoint? tie x q = some c ∧ searchGrid tie x tries p = ⟨c, q⟩ := by
  induction tries generalizing p with
  | zero => omega
  | succ tries ih =>
    rw [searchGrid]
    split
    · rename_i c hc
      exact ⟨p, c, hle, hc, rfl⟩
    · rename_i hnone
      have hne : r ≠ p := by
        rintro rfl
        obtain ⟨c, hc⟩ := h
        rw [hnone] at hc
        cases hc
      exact ih (by omega) (by push_cast at hlt; omega)

theorem log2_significand_le (x : Binary64) : x.significand.log2 ≤ 52 := by
  obtain ⟨-, -, -, hm, -⟩ := x.exists_parts
  rcases Nat.eq_zero_or_pos x.significand with hzero | hpos
  · rw [hzero]
    decide
  · exact Nat.lt_succ_iff.mp ((Nat.log2_lt hpos.ne').mpr hm)

theorem exponent_le {x : Binary64} (h : x.isFinite = true) : x.exponent ≤ 971 := by
  have hlt : x.magnitude < 2047 * hiddenBit := of_decide_eq_true h
  have hdiv : x.magnitude / hiddenBit < 2047 := Nat.div_lt_of_lt_mul (by rwa [Nat.mul_comm])
  rw [exponent]
  split
  · decide
  · omega

/-- Twenty grids below the ceiling the grid is finer than the interval. -/
theorem pow_ceiling_sub_lt {x : Binary64} (h : x.isFinite = true) :
    (10 : ℚ) ^ (x.decimalCeiling - 20) < 3 * 2 ^ (x.exponent - 2) := by
  have hlog := x.log2_significand_le
  have hupper := exponent_le h
  have hlower : -1074 ≤ x.exponent := by
    obtain ⟨n, hexponent, -⟩ := x.exists_parts
    omega
  obtain ⟨q, hq⟩ : ∃ q, q = x.decimalCeiling - 20 := ⟨_, rfl⟩
  rw [← hq]
  rw [decimalCeiling] at hq
  have hle : (10 : ℚ) ^ q ≤ 2 ^ (x.exponent - 1) := by
    generalize x.exponent = e at hupper hlower hq ⊢
    rcases le_or_gt 0 q with hpos | hneg
    · exact zpow_le_zpow_of_pow_le (by norm_num1) one_le_two (a := 3) (b := 10) three_ne_zero
        (by norm_num1) hpos (by push_cast; omega)
    · rcases le_or_gt 1 e with he | he
      · calc (10 : ℚ) ^ q ≤ 1 := zpow_le_one_of_nonpos₀ (by norm_num1) hneg.le
          _ ≤ 2 ^ (e - 1) := one_le_zpow₀ one_le_two (by omega)
      · rw [← inv_le_inv₀ (by positivity) (by positivity), ← zpow_neg, ← zpow_neg]
        exact zpow_le_zpow_of_pow_le two_pos (by norm_num1) (a := 93) (b := 28) (by decide)
          (by norm_num1) (by omega) (by push_cast; omega)
  have hscale : (0 : ℚ) < 2 ^ (x.exponent - 2) := by positivity
  rw [show x.exponent - 1 = x.exponent - 2 + 1 by ring, zpow_add_one₀ two_ne_zero] at hle
  linarith

/-- The decimal of a number lies on a grid with a point in the interval, or on a coarser one. -/
theorem exists_shortest {tie : Tie} {x : Binary64} (hzero : x.magnitude ≠ 0) {r : Int}
    (h : ∃ c, gridPoint? tie x r = some c) (hle : r ≤ x.decimalCeiling)
    (hlt : x.decimalCeiling - 20 ≤ r) :
    ∃ q c, r ≤ q ∧ gridPoint? tie x q = some c ∧ x.shortest tie = ⟨c, q⟩ := by
  rw [shortest, if_neg hzero]
  exact searchGrid_of_exists h 21 hle (by push_cast; omega)

/-- The shortest decimal of a finite number is rounded to the number. -/
theorem roundsTo_shortest (tie : Tie) {x : Binary64} (hfinite : x.isFinite = true) :
    RoundsTo (x.shortest tie).value x.magnitude := by
  by_cases hzero : x.magnitude = 0
  · rw [shortest, if_pos hzero, hzero, Decimal.value, Nat.cast_zero, zero_mul, ← sizeAt_zero]
    exact roundsTo_sizeAt 0
  · have hfine := exists_gridPoint?_of_lt tie hfinite hzero (pow_ceiling_sub_lt hfinite)
    obtain ⟨q, c, -, hc, hshortest⟩ := exists_shortest hzero hfine (by omega) le_rfl
    rw [hshortest]
    exact (isInside_iff hfinite hzero q c).mp (isInside_of_gridPoint? hc)

/-- A decimal with the value of the shortest one reads back as the number. -/
theorem nearest_eq_of_value_eq {tie : Tie} {x : Binary64} (hfinite : x.isFinite = true) {d : Decimal}
    (h : d.value = (x.shortest tie).value) : nearest x.isNegative d = x := by
  have hrounds : RoundsTo d.value x.magnitude := h ▸ roundsTo_shortest tie hfinite
  rw [nearest, nearestMagnitude_eq hrounds (of_decide_eq_true hfinite).le, ofParts_magnitude]

/-- Only zero has no digits. -/
theorem shortest_eq_zero {tie : Tie} {x : Binary64} (hfinite : x.isFinite = true)
    (h : (x.shortest tie).digits = 0) : x.shortest tie = ⟨0, 0⟩ := by
  have hrounds := roundsTo_shortest tie hfinite
  rw [Decimal.value, h, Nat.cast_zero, zero_mul, ← sizeAt_zero] at hrounds
  have hzero := hrounds.unique (roundsTo_sizeAt 0) (of_decide_eq_true hfinite).le (Nat.zero_le _)
  rw [shortest, if_pos hzero]

/-- A whole number below `2 ^ 63` is written without a fraction. -/
theorem exponent_shortest_nonneg {tie : Tie} {x : Binary64} (hfinite : x.isFinite = true) {k : Nat}
    (h : x.size = k) (hlimit : k < 2 ^ 63) : 0 ≤ (x.shortest tie).exponent := by
  by_cases hzero : x.magnitude = 0
  · rw [shortest, if_pos hzero]
  · have hpos : 0 < k := by
      have hlt := strictMono_sizeAt (Nat.pos_of_ne_zero hzero)
      rw [sizeAt_zero, ← size_eq_sizeAt, h] at hlt
      exact_mod_cast hlt
    have hsignificand : x.significand ≠ 0 := by
      intro hnone
      rw [size_eq_mul, hnone, Nat.cast_zero, zero_mul] at h
      exact hpos.ne (by exact_mod_cast h)
    have hscale : (0 : ℚ) < 2 ^ x.exponent := by positivity
    -- the number lies between two powers of two, and so its ceiling between two integers
    have hlow : (2 : ℚ) ^ (x.significand.log2 + x.exponent) ≤ k := by
      rw [zpow_add₀ two_ne_zero, ← h, size_eq_mul]
      exact mul_le_mul_of_nonneg_right (by exact_mod_cast Nat.log2_self_le hsignificand) hscale.le
    have hhigh : (k : ℚ) < 2 ^ (x.significand.log2 + 1 + x.exponent) := by
      rw [zpow_add₀ two_ne_zero, ← h, size_eq_mul]
      exact mul_lt_mul_of_pos_right (by exact_mod_cast Nat.lt_log2_self) hscale
    have hupper : x.significand.log2 + x.exponent < 63 := by
      refine (zpow_lt_zpow_iff_right₀ (one_lt_two (α := ℚ))).mp (hlow.trans_lt ?_)
      exact_mod_cast hlimit
    have hlower : 0 < x.significand.log2 + 1 + x.exponent := by
      refine (zpow_lt_zpow_iff_right₀ (one_lt_two (α := ℚ))).mp (hhigh.trans_le' ?_)
      rw [zpow_zero]
      exact_mod_cast hpos
    obtain ⟨q, c, hq, -, hshortest⟩ := exists_shortest hzero
      (exists_gridPoint?_of_whole tie hfinite hzero h) (by rw [decimalCeiling]; omega)
      (by rw [decimalCeiling]; omega)
    rw [hshortest]
    exact hq

end Workflow.Binary64
